import Xv6.DirView
import Xv6.Sysfile

/-!
# Calls that run alone

What the functions of the inode table do when no other process is in the middle of a call: they
neither wait nor panic, as long as the table has room. `namex` is then the walk on the disk, and
drops every reference that it takes but the one it returns.
-/

namespace Xv6.Fs

open Act Threads Function Multiset

section actions

variable {α β : Type} {A : State → Prop}

/-- The action succeeds in every state with `A`. -/
def Act.Total (A : State → Prop) (x : Act α) (B : α → State → Prop) : Prop :=
  ∀ s, A s → ∃ a t, x s = some (.ok (a, t)) ∧ B a t

theorem Act.Total.bind {x : Act α} {f : α → Act β} {B : α → State → Prop} {D : β → State → Prop}
    (hx : Total A x B) (hf : ∀ a, Total (B a) (f a) D) : Total A (x >>= f) D := by
  intro s hs
  obtain ⟨a, t, hrun, hB⟩ := hx s hs
  obtain ⟨b, u, hrest, hD⟩ := hf a t hB
  exact ⟨b, u, bind_eq_ok.2 ⟨a, t, hrun, hrest⟩, hD⟩

theorem Act.Total.then {x : Act Unit} {y : Act β} {B : State → Prop} {D : β → State → Prop}
    (hx : Total A x fun _ => B) (hy : Total B y D) : Total A (do x; y) D := hx.bind fun _ => hy

theorem Act.Total.pure {a : α} {B : α → State → Prop} (h : ∀ s, A s → B a s) :
    Total A (pure a) B := fun s hs => ⟨a, s, rfl, h s hs⟩

theorem Act.Total.reading {f : State → Act β} {D : β → State → Prop}
    (h : ∀ s, A s → ∃ b t, f s s = some (.ok (b, t)) ∧ D b t) : Total A (get >>= f) D := h

/-- No call is under way but that of process `p`, whose references and those of the directories and
files together are `R`, and which has locked inode `l`. This is known of the inodes in `K`. -/
structure Scene (K : ℕ → Prop) (p : ℕ) (d : Disk) (w : ℕ → Proc) (R : Multiset ℕ) (l : Option ℕ)
    (s : State) : Prop where
  disk : s.disk = d
  procs : s.procs = w
  inside : ∀ i ∈ R, K i
  ref : ∀ i, K i → (s.itable i).ref = R.count i
  active : s.active = R.toFinset.card
  lock : ∀ i, K i → (s.itable i).lock = if l = some i then some p else none
  copy : ∀ i, K i → (s.itable i).ref ≠ 0 → (s.itable i).valid = true →
    (s.itable i).copy = d.dinode i
  valid : ∀ i, l = some i → i ∈ R ∧ (s.itable i).valid = true

variable {K : ℕ → Prop} {p : ℕ} {d : Disk} {w : ℕ → Proc} {R : Multiset ℕ} {l : Option ℕ}
    {s : State} {i : ℕ}

theorem Scene.setInode (h : Scene K p d w R l s) (hi : K i) {e : Inode} {R' : Multiset ℕ}
    {l' : Option ℕ} {a : ℕ} (hinside : ∀ j ∈ R', K j) (hself : e.ref = R'.count i)
    (hother : ∀ j, j ≠ i → R'.count j = R.count j) (hactive : a = R'.toFinset.card)
    (hlock : e.lock = if l' = some i then some p else none)
    (hlocks : ∀ j, j ≠ i → (l' = some j ↔ l = some j))
    (hcopy : e.ref ≠ 0 → e.valid = true → e.copy = d.dinode i)
    (hvalid : l' = some i → e.ref ≠ 0 ∧ e.valid = true) :
    Scene K p d w R' l' { s.setInode i e with active := a } := by
  obtain ⟨hd, hw, -, href, -, hl, hc, hv⟩ := h
  constructor
  · exact hd
  · exact hw
  · exact hinside
  · intro j hj
    by_cases hji : j = i
    · subst hji
      simpa [State.setInode] using hself
    · simpa [State.setInode, hji, hother j hji] using href j hj
  · exact hactive
  · intro j hj
    by_cases hji : j = i
    · subst hji
      simpa [State.setInode] using hlock
    · simpa [State.setInode, hji, hlocks j hji] using hl j hj
  · intro j hj
    by_cases hji : j = i
    · subst hji
      simpa [State.setInode] using hcopy
    · simpa [State.setInode, hji] using hc j hj
  · intro j hj
    by_cases hji : j = i
    · subst hji
      obtain ⟨hne, hval⟩ := hvalid hj
      refine ⟨Multiset.count_pos.1 (by omega), ?_⟩
      simpa [State.setInode] using hval
    · obtain ⟨hmem, hval⟩ := hv j ((hlocks j hji).1 hj)
      refine ⟨Multiset.count_pos.1 ?_, ?_⟩
      · rw [hother j hji]
        exact Multiset.count_pos.2 hmem
      · simpa [State.setInode, hji] using hval

theorem Scene.inside_cons (h : Scene K p d w R l s) (hi : K i) (j : ℕ) (hj : j ∈ i ::ₘ R) :
    K j := by
  rcases Multiset.mem_cons.1 hj with rfl | hj
  · exact hi
  · exact h.inside j hj

theorem Scene.incRef (h : Scene K p d w R l s) (hmem : i ∈ R) :
    Scene K p d w (i ::ₘ R) l (s.setInode i { s.itable i with ref := (s.itable i).ref + 1 }) := by
  have hi := h.inside i hmem
  have hpos := Multiset.count_pos.2 hmem
  have href := h.ref i hi
  refine h.setInode (a := s.active) hi (h.inside_cons hi) ?_ (fun j hj => count_cons_of_ne hj R) ?_
    (h.lock i hi) (fun _ _ => Iff.rfl) (fun _ => h.copy i hi (by omega))
    (fun hl => ⟨Nat.succ_ne_zero _, (h.valid i hl).2⟩)
  · rw [count_cons_self, href]
  · rw [h.active, toFinset_cons, Finset.insert_eq_of_mem (Multiset.mem_toFinset.2 hmem)]

theorem total_idup (hmem : i ∈ R) :
    Total (Scene K p d w R l) (idup i) fun _ => Scene K p d w (i ::ₘ R) l :=
  fun _ h => ⟨(), _, rfl, h.incRef hmem⟩

theorem total_iget (hi : K i) (hroom : (i ::ₘ R).toFinset.card ≤ ninode) :
    Total (Scene K p d w R l) (iget i) fun _ => Scene K p d w (i ::ₘ R) l := by
  intro s h
  have href := h.ref i hi
  unfold iget
  by_cases hpos : 0 < (s.itable i).ref
  · rw [if_pos hpos]
    exact ⟨(), _, rfl, h.incRef (Multiset.count_pos.1 (by omega))⟩
  · have hmem : i ∉ R := Multiset.count_eq_zero.1 (by omega)
    have hcard : (i ::ₘ R).toFinset.card = s.active + 1 := by
      rw [h.active, toFinset_cons, Finset.card_insert_of_notMem]
      rwa [mem_toFinset]
    rw [if_neg hpos, if_neg (by omega)]
    refine ⟨(), _, rfl, h.setInode hi (h.inside_cons hi) ?_ (fun j hj => count_cons_of_ne hj R)
      hcard.symm (h.lock i hi) (fun _ _ => Iff.rfl) (fun _ hv => Bool.noConfusion hv)
      (fun hl => absurd (h.valid i hl).1 hmem)⟩
    rw [count_cons_self, ← href]
    simp only
    omega

theorem total_ilock (hmem : i ∈ R) (hty : (d.dinode i).type ≠ .none) :
    Total (Scene K p d w R none) (ilock p i) fun _ => Scene K p d w R (some i) := by
  intro s h
  have hi := h.inside i hmem
  have hpos := Multiset.count_pos.2 hmem
  have href := h.ref i hi
  have hlock : (s.itable i).lock = none := by simpa using h.lock i hi
  have hset {e : Inode} (he : e.lock = some p ∧ e.ref = (s.itable i).ref ∧ e.valid = true ∧
      e.copy = d.dinode i) : Scene K p d w R (some i) (s.setInode i e) := by
    obtain ⟨hl, hr, hv, hc⟩ := he
    refine h.setInode (a := s.active) hi h.inside (hr.trans href) (fun _ _ => rfl) h.active ?_ ?_
      (fun _ _ => hc) (fun _ => ⟨by omega, hv⟩)
    · rw [if_pos rfl, hl]
    · intro j hj
      simp [Ne.symm hj]
  unfold ilock
  rw [if_neg (by omega), if_neg (by simp [hlock])]
  by_cases hv : (s.itable i).valid = true
  · rw [if_pos hv]
    exact ⟨(), _, rfl, hset ⟨rfl, rfl, hv, h.copy i hi (by omega) hv⟩⟩
  · rw [if_neg hv, if_neg (by rwa [h.disk])]
    exact ⟨(), _, rfl, hset ⟨rfl, rfl, rfl, by rw [h.disk]⟩⟩

theorem total_iunlock : Total (Scene K p d w R (some i))
    (iunlock p i) fun _ => Scene K p d w R none := by
  intro s h
  have hmem := (h.valid i rfl).1
  have hi := h.inside i hmem
  have hpos := Multiset.count_pos.2 hmem
  have href := h.ref i hi
  have hlock : (s.itable i).lock = some p := by simpa using h.lock i hi
  unfold iunlock
  rw [if_neg (by rw [hlock]; simp only [ne_eq, not_true_eq_false, false_or]; omega)]
  refine ⟨(), _, rfl, h.setInode (a := s.active) hi h.inside href (fun _ _ => rfl) h.active rfl ?_
    (fun _ => h.copy i hi (by omega)) (fun hl => by cases hl)⟩
  intro j hj
  simp [Ne.symm hj]

theorem Scene.store (h : Scene K p d w R (some i) s) {d' : Disk} {ip' : Dinode}
    (hother : ∀ j, j ≠ i → d'.dinode j = d.dinode j) (hself : d'.dinode i = ip') :
    Scene K p d' w R (some i) (s.store i d' ip') := by
  obtain ⟨-, hw, hinside, href, hactive, hlock, hcopy, hvalid⟩ := h
  have hne {j : ℕ} (hj : j ≠ i) : (s.store i d' ip').itable j = s.itable j := by
    simp [State.store, hj]
  have heq : (s.store i d' ip').itable i = { s.itable i with copy := ip' } := by
    simp [State.store]
  have hrest (j : ℕ) : ((s.store i d' ip').itable j).ref = (s.itable j).ref ∧
      ((s.store i d' ip').itable j).lock = (s.itable j).lock ∧
      ((s.store i d' ip').itable j).valid = (s.itable j).valid := by
    by_cases hji : j = i
    · rw [hji, heq]
      exact ⟨rfl, rfl, rfl⟩
    · rw [hne hji]
      exact ⟨rfl, rfl, rfl⟩
  refine ⟨rfl, hw, hinside, fun j hj => ?_, hactive, fun j hj => ?_, fun j hj => ?_, fun j hj => ?_⟩
  · rw [(hrest j).1]
    exact href j hj
  · rw [(hrest j).2.1]
    exact hlock j hj
  · by_cases hji : j = i
    · rw [hji, heq]
      exact fun _ _ => hself.symm
    · rw [hne hji, hother j hji]
      exact hcopy j hj
  · rw [(hrest j).2.2]
    exact hvalid j hj

theorem Scene.ip_eq (h : Scene K p d w R (some i) s) : s.ip i = d.dinode i := by
  obtain ⟨hmem, hv⟩ := h.valid i rfl
  have hi := h.inside i hmem
  have hpos := Multiset.count_pos.2 hmem
  exact h.copy i hi (by rw [h.ref i hi]; omega) hv

theorem total_onInode {f : Disk → Dinode → Except Panic (Disk × Dinode × α)} {d' : Disk}
    {ip' : Dinode} {a : α} (hf : f d (d.dinode i) = .ok (d', ip', a))
    (hother : ∀ j, j ≠ i → d'.dinode j = d.dinode j) (hself : d'.dinode i = ip') :
    Total (Scene K p d w R (some i)) (onInode i f)
    fun r s => r = a ∧ Scene K p d' w R (some i) s := by
  intro s h
  refine ⟨a, s.store i d' ip', ?_, rfl, h.store hother hself⟩
  simp only [onInode, h.ip_eq, h.disk, hf]

theorem total_modifyInode (f : Dinode → Dinode) :
    Total (Scene K p d w R (some i)) (modifyInode i f) fun _ =>
      Scene K p (d.iupdate i (f (d.dinode i))) w R (some i) := by
  intro s h
  refine ⟨(), _, rfl, ?_⟩
  rw [h.ip_eq, h.disk]
  refine h.store (fun j hj => ?_) ?_
  · exact update_of_ne hj ..
  · exact update_self ..

theorem total_iput (hmem : i ∈ R) (hkeep : 2 ≤ R.count i ∨ (d.dinode i).nlink ≠ 0) :
    Total (Scene K p d w R none) (iput i)
    fun r s => r = false ∧ Scene K p d w (R.erase i) none s := by
  intro s h
  have hi := h.inside i hmem
  have hpos := Multiset.count_pos.2 hmem
  have href := h.ref i hi
  have hnot : ¬ ((s.itable i).ref = 1 ∧ (s.itable i).valid = true ∧ (s.ip i).nlink = 0) := by
    rintro ⟨hone, hv, hlink⟩
    have hcopy : s.ip i = d.dinode i := h.copy i hi (by omega) hv
    rw [hcopy] at hlink
    rcases hkeep with htwo | hne
    · omega
    · exact hne hlink
  unfold iput
  rw [if_neg hnot]
  refine ⟨false, _, rfl, rfl, h.setInode hi (fun j hj => h.inside j (mem_of_mem_erase hj))
    ?_ (fun j hj => count_erase_of_ne hj R) ?_ (by simpa using h.lock i hi)
    (fun _ _ => Iff.rfl) (fun _ => h.copy i hi (by omega)) (fun hl => by cases hl)⟩
  · rw [count_erase_self, ← href]
  · rw [href, h.active]
    by_cases hone : R.count i = 1
    · have hgone : i ∉ R.erase i := by
        rw [← count_eq_zero, count_erase_self, hone]
      rw [if_pos hone, ← cons_erase hmem, toFinset_cons, erase_cons_head,
        Finset.card_insert_of_notMem (by rwa [mem_toFinset]), Nat.add_sub_cancel]
    · have hstays : i ∈ R.erase i := by
        rw [← count_pos, count_erase_self]
        omega
      rw [if_neg hone, ← cons_erase hmem, toFinset_cons,
        erase_cons_head, Finset.insert_eq_of_mem (by rwa [mem_toFinset])]

end actions

section walk

variable {sb : Super} {K : ℕ → Prop} {p : ℕ} {d : Disk} {w : ℕ → Proc} {R : Multiset ℕ} {i : ℕ}

/-- The inode that `dirlookup` finds. -/
def lookupIn (sb : Super) (d : Disk) (i : ℕ) (name : Name) : Option ℕ :=
  match dirlookup sb d (d.dinode i) name with
  | .ok (_, _, some (_, inum)) => some inum
  | _ => none

def walkOn (sb : Super) (d : Disk) (parent last : Bool) (i : ℕ) (name : Name) : Walk :=
  if (d.dinode i).type ≠ .dir then .fail
  else if parent && last then .stop
  else
    match lookupIn sb d i name with
    | none => .fail
    | some j => .next j

def Walk.refs (R : Multiset ℕ) : Walk → Multiset ℕ
  | .next j => j ::ₘ R
  | _ => R

structure Sound (sb : Super) (d : Disk) (i : ℕ) : Prop where
  good : Good sb d
  type : (d.dinode i).type ≠ .none
  size : (d.dinode i).type = .dir → deSize ∣ (d.dinode i).size

theorem Sound.dirlookup (h : Sound sb d i) (hty : (d.dinode i).type = .dir) (name : Name) :
    ∃ r, dirlookup sb d (d.dinode i) name = .ok (d, d.dinode i, r) ∧
    r.map Prod.snd = lookupIn sb d i name := by
  rcases dirlookup_spec sb name hty (h.good.mapped i h.type) with ⟨hno, -⟩ | ⟨m, inum,
    hok, -⟩ | ⟨hok, -⟩
  · exact absurd (h.size hty) hno
  · exact ⟨_, hok, by rw [lookupIn, hok]; rfl⟩
  · exact ⟨_, hok, by rw [lookupIn, hok]; rfl⟩

theorem total_lookup (h : Sound sb d i) (hty : (d.dinode i).type = .dir) {name : Name}
    (hroom : ∀ j, lookupIn sb d i name = some j → K j ∧ (j ::ₘ R).toFinset.card ≤ ninode) :
    Total (Scene K p d w R (some i)) (lookup sb i name)
    fun r s => r.map Prod.snd = lookupIn sb d i name ∧
      Scene K p d w ((lookupIn sb d i name).elim R (· ::ₘ R)) (some i) s := by
  obtain ⟨r, hok, hr⟩ := h.dirlookup hty name
  refine (total_onInode hok (fun _ _ => rfl) rfl).bind ?_
  rintro r s ⟨rfl, hs⟩
  rw [← hr] at hroom ⊢
  cases r with
  | none => exact ⟨none, s, rfl, rfl, hs⟩
  | some r =>
    obtain ⟨off, inum⟩ := r
    obtain ⟨hK, hcard⟩ := hroom inum rfl
    exact (total_iget hK hcard).then (.pure fun s hs => ⟨rfl, hs⟩) s hs

theorem total_walk (hmem : i ∈ R) (h : Sound sb d i) {parent last : Bool} {name : Name}
    (hroom : ∀ j, walkOn sb d parent last i name = .next j → K j ∧
      (j ::ₘ R).toFinset.card ≤ ninode) :
    Total (Scene K p d w R none) (walk sb p parent last i name) fun r s =>
      r = walkOn sb d parent last i name ∧ Scene K p d w (r.refs R) none s := by
  refine (total_ilock hmem h.type).then ?_
  apply Total.reading
  intro s hs
  rw [hs.ip_eq]
  unfold walkOn at hroom ⊢
  by_cases hty : (d.dinode i).type = .dir
  · rw [if_neg (not_not.2 hty)] at hroom ⊢
    by_cases hstop : (parent && last) = true
    · rw [if_neg (not_not.2 hty), if_pos hstop, if_pos hstop]
      exact (total_iunlock.then (.pure fun s hs => ⟨rfl, hs⟩)) s hs
    · rw [if_neg hstop] at hroom
      rw [if_neg (not_not.2 hty), if_neg hstop, if_neg hstop]
      refine (total_lookup h hty fun j hj => hroom j (by rw [hj])).bind ?_ s hs
      rintro r s ⟨hr, hs⟩
      rw [← hr] at hs ⊢
      cases r with
      | none => exact (total_iunlock.then (.pure fun s hs => ⟨rfl, hs⟩)) s hs
      | some r => exact (total_iunlock.then (.pure fun s hs => ⟨rfl, hs⟩)) s hs
  · rw [if_pos hty, if_pos hty]
    exact (total_iunlock.then (.pure fun s hs => ⟨rfl, hs⟩)) s hs

end walk

section programs

variable {α β : Type} {A : State → Prop}

/-- The program ends in every state with `A`, when it runs alone. -/
def Ends (A : State → Prop) (c : Code α) (B : α → State → Prop) : Prop :=
  ∀ s, A s → ∃ a t n, Does c s a t n ∧ B a t

theorem Ends.bind {c : Code α} {k : α → Code β} {B : α → State → Prop} {D : β → State → Prop}
    (hc : Ends A c B) (hk : ∀ a, Ends (B a) (k a) D) : Ends A (c >>= k) D := by
  intro s hs
  obtain ⟨a, t, m, hdo, hB⟩ := hc s hs
  obtain ⟨b, u, n, hrest, hD⟩ := hk a t hB
  exact ⟨b, u, m + n, hdo.bind hrest, hD⟩

theorem Ends.mono {c : Code α} {B D : α → State → Prop} (h : Ends A c B)
    (himp : ∀ a s, B a s → D a s) : Ends A c D := by
  intro s hs
  obtain ⟨a, t, n, hdo, hB⟩ := h s hs
  exact ⟨a, t, n, hdo, himp a t hB⟩

theorem Ends.pure {a : α} {B : α → State → Prop} (h : ∀ s, A s → B a s) :
    Ends A (pure a : Code α) B := fun s hs => ⟨a, s, 0, .ret a s, h s hs⟩

theorem Act.Total.ends {x : Act α} {B : α → State → Prop} (h : Total A x B) :
    Ends A (atom x) B := by
  intro s hs
  obtain ⟨a, t, hrun, hB⟩ := h s hs
  exact ⟨a, t, 1, .atom hrun, hB⟩

variable {sb : Super} {K : ℕ → Prop} {p : ℕ} {d : Disk} {w : ℕ → Proc} {R : Multiset ℕ} {i : ℕ}

theorem ends_put (hkeep : (d.dinode i).nlink ≠ 0 ∨ i ∈ R) :
    Ends (Scene K p d w (i ::ₘ R) none) (put i) fun _ => Scene K p d w R none := by
  have hcount : 2 ≤ (i ::ₘ R).count i ∨ (d.dinode i).nlink ≠ 0 := by
    rcases hkeep with hlink | hmem
    · exact .inr hlink
    · have hpos := Multiset.count_pos.2 hmem
      rw [count_cons_self]
      omega
  refine (total_iput (mem_cons_self i R) hcount).ends.bind ?_
  rintro _ s ⟨rfl, hs⟩
  rw [erase_cons_head] at hs
  exact ⟨(), s, 0, .ret () s, hs⟩

def namexOn (sb : Super) (d : Disk) (parent : Bool) : List Name → ℕ → Option ℕ
  | [], i => if parent then none else some i
  | name :: rest, i =>
    match walkOn sb d parent rest.isEmpty i name with
    | .fail => none
    | .stop => some i
    | .next j => namexOn sb d parent rest j

structure Passable (sb : Super) (K : ℕ → Prop) (d : Disk) (R : Multiset ℕ) (i : ℕ) : Prop where
  sound : Sound sb d i
  known : K i
  keep : (d.dinode i).nlink ≠ 0 ∨ i ∈ R

def Walkable (sb : Super) (K : ℕ → Prop) (d : Disk) (R : Multiset ℕ) (parent : Bool) :
    List Name → ℕ → Prop
  | [], _ => True
  | name :: rest, i => ∀ j, walkOn sb d parent rest.isEmpty i name = .next j →
    Passable sb K d R j ∧ (j ::ₘ i ::ₘ R).toFinset.card ≤ ninode ∧ Walkable sb K d R parent rest j

/-- The loop of `namex` has the result of the walk on the disk, and holds a reference to it and
nothing else. -/
theorem ends_namexLoop {parent : Bool} {names : List Name} (hi : Passable sb K d R i)
    (hwalk : Walkable sb K d R parent names i) :
    Ends (Scene K p d w (i ::ₘ R) none) (namexLoop sb p parent names i) fun r s =>
      r = namexOn sb d parent names i ∧ Scene K p d w (r.elim R (· ::ₘ R)) none s := by
  induction names generalizing i with
  | nil =>
    cases parent with
    | true => exact (ends_put hi.keep).bind fun _ => .pure fun s hs => ⟨rfl, hs⟩
    | false => exact .pure fun s hs => ⟨rfl, hs⟩
  | cons name rest ih =>
    refine (total_walk (mem_cons_self i R) hi.sound fun j hj =>
      ⟨(hwalk j hj).1.known, (hwalk j hj).2.1⟩).ends.bind ?_
    rintro r s ⟨rfl, hs⟩
    rw [namexOn]
    cases hw : walkOn sb d parent rest.isEmpty i name with
    | fail =>
      rw [hw] at hs
      exact ((ends_put hi.keep).bind fun _ => .pure fun s hs => ⟨rfl, hs⟩) s hs
    | stop =>
      rw [hw] at hs
      exact ⟨_, s, 0, .ret _ s, rfl, hs⟩
    | next j =>
      obtain ⟨hj, -, hrest⟩ := hwalk j hw
      rw [hw, Walk.refs, cons_swap] at hs
      exact ((ends_put (hi.keep.imp_right mem_cons_of_mem)).bind fun _ => ih hj hrest) s hs

def Path.start (path : Path) (cwd : ℕ) : ℕ := if path.absolute then rootino else cwd

theorem ends_start {path : Path} {cwd : ℕ} (hcwd : (w p).cwd = some cwd) (hmem : cwd ∈ R)
    (hi : path.start cwd = i) (hknown : K i) (hroom : (i ::ₘ R).toFinset.card ≤ ninode) :
    Ends (Scene K p d w R none) (atom (namexStart p path))
    fun r s => r = i ∧ Scene K p d w (i ::ₘ R) none s := by
  apply Act.Total.ends
  intro s hs
  unfold namexStart
  unfold Path.start at hi
  split_ifs at hi ⊢ with habs
  · subst hi
    exact (total_iget hknown hroom).then (.pure fun s hs => ⟨rfl, hs⟩) s hs
  · subst hi
    apply Total.reading _ s hs
    intro s hs
    rw [hs.procs, hcwd]
    exact (total_idup hmem).then (.pure fun s hs => ⟨rfl, hs⟩) s hs

theorem ends_namex {parent : Bool} {path : Path} {cwd : ℕ} (hcwd : (w p).cwd = some cwd)
    (hmem : cwd ∈ R) (hi : path.start cwd = i) (hstart : Passable sb K d R i)
    (hroom : (i ::ₘ R).toFinset.card ≤ ninode)
    (hwalk : Walkable sb K d R parent path.names i) :
    Ends (Scene K p d w R none) (namex sb p parent path) fun r s =>
      r = namexOn sb d parent path.names i ∧ Scene K p d w (r.elim R (· ::ₘ R)) none s := by
  refine (ends_start hcwd hmem hi hstart.known hroom).bind ?_
  rintro _ s ⟨rfl, hs⟩
  exact ends_namexLoop hstart hwalk s hs

end programs

end Xv6.Fs
