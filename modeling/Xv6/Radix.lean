import Mathlib.Data.List.Perm.Lattice
import Mathlib.Tactic

/-!
# Radix trees in a heap

A tree of fixed depth is given by the children of each node, `child : ν → ι → Option ν`, over the
indices of a list. `nodes` lists the nodes of a tree and `inner` those above the last level; a tree
in which no node is shared is one whose `nodes` have no duplicates. Then a node is reached by one
path only, and changes in one place show nowhere else.
-/

namespace Xv6.Radix

open List Option

variable {ν ι : Type*} (child : ν → ι → Option ν) (idx : List ι)

/-- The nodes of the tree of depth `l` below `n`. -/
def nodes : ℕ → ν → List ν
  | 0, n => [n]
  | l + 1, n => n :: idx.flatMap fun i => ((child n i).map (nodes l)).getD []

/-- The nodes whose children belong to the tree. -/
def inner : ℕ → ν → List ν
  | 0, _ => []
  | l + 1, n => n :: idx.flatMap fun i => ((child n i).map (inner l)).getD []

def reach : List ι → ν → Option ν
  | [], n => some n
  | i :: is, n => (child n i).bind (reach is)

variable {child idx} {child' : ν → ι → Option ν} {l : ℕ} {n m c x : ν} {i : ι} {is js : List ι}

theorem self_mem_nodes : n ∈ nodes child idx l n := by
  cases l <;> simp [nodes]

theorem mem_cons_children {f : ν → List ν} :
    x ∈ n :: idx.flatMap (fun i => ((child n i).map f).getD []) ↔
      x = n ∨ ∃ i ∈ idx, ∃ c, child n i = some c ∧ x ∈ f c := by
  rw [mem_cons, mem_flatMap]
  refine or_congr Iff.rfl (exists_congr fun i => and_congr Iff.rfl ?_)
  cases child n i with
  | none => simp
  | some c => simp

theorem mem_nodes_succ : x ∈ nodes child idx (l + 1) n ↔
      x = n ∨ ∃ i ∈ idx, ∃ c, child n i = some c ∧ x ∈ nodes child idx l c := mem_cons_children

theorem mem_inner_succ : x ∈ inner child idx (l + 1) n ↔
      x = n ∨ ∃ i ∈ idx, ∃ c, child n i = some c ∧ x ∈ inner child idx l c := mem_cons_children

theorem inner_succ : inner child idx (l + 1) n = nodes child idx l n := by
  induction l generalizing n with
  | zero =>
    have hnone (i : ι) : ((child n i).map (inner child idx 0)).getD [] = [] := by
      cases child n i <;> rfl
    simp only [inner, nodes] at hnone ⊢
    simp [hnone]
  | succ l ih => rw [inner, nodes, funext fun c => @ih c]

theorem inner_subset (hx : x ∈ inner child idx l n) : x ∈ nodes child idx l n := by
  induction l generalizing n with
  | zero => simp [inner] at hx
  | succ l ih =>
    rcases mem_inner_succ.1 hx with rfl | ⟨i, hi, c, hc, hx⟩
    · exact self_mem_nodes
    · exact mem_nodes_succ.2 (.inr ⟨i, hi, c, hc, ih hx⟩)

/-- Only the children of the inner nodes matter. -/
theorem nodes_congr (h : ∀ x ∈ inner child idx l n, child' x = child x) :
    nodes child' idx l n = nodes child idx l n := by
  induction l generalizing n with
  | zero => rfl
  | succ l ih =>
    rw [nodes, nodes, h n (mem_inner_succ.2 (.inl rfl))]
    congr 1
    refine flatMap_congr fun i hi => ?_
    cases hc : child n i with
    | none => rfl
    | some c =>
      simp only [map_some, getD_some]
      exact ih fun x hx => h x (mem_inner_succ.2 (.inr ⟨i, hi, c, hc, hx⟩))

theorem inner_congr (h : ∀ x ∈ inner child idx l n, child' x = child x) :
    inner child' idx l n = inner child idx l n := by
  cases l with
  | zero => rfl
  | succ l =>
    rw [inner_succ] at h ⊢
    rw [inner_succ]
    exact nodes_congr fun x hx => h x (inner_subset hx)

theorem reach_congr (h : ∀ x ∈ inner child idx l n, child' x = child x) (hl : is.length ≤ l)
    (his : ∀ i ∈ is, i ∈ idx) : reach child' is n = reach child is n := by
  induction is generalizing n l with
  | nil => rfl
  | cons i is ih =>
    obtain ⟨l, rfl⟩ := Nat.exists_eq_add_one.2 (Nat.zero_lt_of_lt hl)
    rw [reach, reach, h n (mem_inner_succ.2 (.inl rfl))]
    cases hc : child n i with
    | none => rfl
    | some c =>
      rw [bind_some, bind_some]
      refine ih (fun x hx => h x ?_) (by simpa using hl) fun j hj => his j (mem_cons_of_mem i hj)
      exact mem_inner_succ.2 (.inr ⟨i, his i mem_cons_self, c, hc, hx⟩)

theorem reach_append : reach child (is ++ js) n = (reach child is n).bind (reach child js) := by
  induction is generalizing n with
  | nil => rfl
  | cons i is ih =>
    rw [cons_append, reach, reach]
    cases child n i with
    | none => rfl
    | some c => exact ih

theorem mem_of_reach (h : reach child is n = some m) (hl : is.length ≤ l)
    (his : ∀ i ∈ is, i ∈ idx) : m ∈ nodes child idx l n := by
  induction is generalizing n l with
  | nil =>
    cases h
    exact self_mem_nodes
  | cons i is ih =>
    obtain ⟨l, rfl⟩ := Nat.exists_eq_add_one.2 (Nat.zero_lt_of_lt hl)
    obtain ⟨c, hc, hm⟩ := Option.bind_eq_some_iff.1 h
    have hmem := ih hm (by simpa using hl) fun j hj => his j (mem_cons_of_mem i hj)
    exact mem_nodes_succ.2 (.inr ⟨i, his i mem_cons_self, c, hc, hmem⟩)

theorem exists_reach_of_mem (hx : x ∈ nodes child idx l n) :
    ∃ is, is.length ≤ l ∧ (∀ i ∈ is, i ∈ idx) ∧ reach child is n = some x := by
  induction l generalizing n with
  | zero =>
    obtain rfl := mem_singleton.1 hx
    exact ⟨[], le_rfl, by simp, rfl⟩
  | succ l ih =>
    rcases mem_nodes_succ.1 hx with rfl | ⟨i, hi, c, hc, hx⟩
    · exact ⟨[], Nat.zero_le _, by simp, rfl⟩
    · obtain ⟨is, hlen, his, hr⟩ := ih hx
      exact ⟨i :: is, Nat.succ_le_succ hlen,
        forall_mem_cons.2 ⟨hi, his⟩, by rw [reach, hc]; exact hr⟩

theorem mem_inner_of_reach (h : reach child is n = some m) (hl : is.length < l)
    (his : ∀ i ∈ is, i ∈ idx) : m ∈ inner child idx l n := by
  obtain ⟨l, rfl⟩ := Nat.exists_eq_add_one.2 (Nat.zero_lt_of_lt hl)
  rw [inner_succ]
  exact mem_of_reach h (Nat.le_of_lt_succ hl) his

section nodup

theorem nodup_child (hn : (nodes child idx (l + 1) n).Nodup) (hi : i ∈ idx)
    (hc : child n i = some c) : (nodes child idx l c).Nodup ∧ n ∉ nodes child idx l c := by
  rw [nodes, nodup_cons, nodup_flatMap] at hn
  have hin := hn.2.1 i hi
  rw [hc] at hin
  refine ⟨hin, fun hmem => hn.1 (mem_flatMap.2 ⟨i, hi, ?_⟩)⟩
  rw [hc]
  exact hmem

theorem disjoint_children (hn : (nodes child idx (l + 1) n).Nodup) {j : ι} {d : ν} (hi : i ∈ idx)
    (hj : j ∈ idx) (hij : i ≠ j) (hc : child n i = some c) (hd : child n j = some d)
    (hx : x ∈ nodes child idx l c) : x ∉ nodes child idx l d := by
  rw [nodes, nodup_cons, nodup_flatMap] at hn
  have hsymm : Std.Symm (Function.onFun List.Disjoint fun i =>
      ((child n i).map (nodes child idx l)).getD []) := ⟨fun _ _ h => List.Disjoint.symm h⟩
  have hdis := hn.2.2.forall hi hj hij
  intro hxd
  refine hdis (a := x) ?_ ?_
  · simpa [hc] using hx
  · simpa [hd] using hxd

/-- The last level is not above itself. -/
theorem not_mem_inner_of_reach (hn : (nodes child idx l n).Nodup) (h : reach child is n = some m)
    (hl : is.length = l) (his : ∀ i ∈ is, i ∈ idx) : m ∉ inner child idx l n := by
  induction is generalizing n l with
  | nil =>
    subst hl
    simp [inner]
  | cons i is ih =>
    subst hl
    have hi := his i mem_cons_self
    have his' : ∀ j ∈ is, j ∈ idx := fun j hj => his j (mem_cons_of_mem i hj)
    obtain ⟨c, hc, hm⟩ := Option.bind_eq_some_iff.1 h
    have hmc := mem_of_reach hm le_rfl his'
    obtain ⟨hnc, hroot⟩ := nodup_child hn hi hc
    intro hin
    rcases mem_inner_succ.1 hin with rfl | ⟨j, hj, d, hd, hin⟩
    · exact hroot hmc
    · by_cases hij : i = j
      · subst hij
        rw [hc] at hd
        cases hd
        exact ih hnc hm rfl his' hin
      · exact disjoint_children hn hi hj hij hc hd hmc (inner_subset hin)

/-- Only one path of each length leads to a node. -/
theorem reach_inj (hn : (nodes child idx l n).Nodup) (h : reach child is n = some m)
    (h' : reach child js n = some m) (hlen : is.length = js.length) (hl : is.length ≤ l)
    (his : ∀ i ∈ is, i ∈ idx) (hjs : ∀ i ∈ js, i ∈ idx) : is = js := by
  induction is generalizing n l js with
  | nil => exact (length_eq_zero_iff.1 hlen.symm).symm
  | cons i is ih =>
    obtain ⟨j, js, rfl⟩ := exists_cons_of_length_eq_add_one hlen.symm
    obtain ⟨l, rfl⟩ := Nat.exists_eq_add_one.2 (Nat.zero_lt_of_lt hl)
    have hi := his i mem_cons_self
    have hj := hjs j mem_cons_self
    have his' : ∀ k ∈ is, k ∈ idx := fun k hk => his k (mem_cons_of_mem i hk)
    have hjs' : ∀ k ∈ js, k ∈ idx := fun k hk => hjs k (mem_cons_of_mem j hk)
    rw [length_cons, length_cons] at hlen
    rw [length_cons] at hl
    obtain ⟨c, hc, hm⟩ := Option.bind_eq_some_iff.1 h
    obtain ⟨d, hd, hm'⟩ := Option.bind_eq_some_iff.1 h'
    have hmc := mem_of_reach (l := l) hm (by omega) his'
    have hmd := mem_of_reach (l := l) hm' (by omega) hjs'
    by_cases hij : i = j
    · subst hij
      rw [hc] at hd
      cases hd
      rw [ih (nodup_child hn hi hc).1 hm hm' (by omega) (by omega) his' hjs']
    · exact absurd hmd (disjoint_children hn hi hj hij hc hd hmc)

end nodup

theorem flatMap_perm_of_ne {α : Type*} (f f' : ι → List α) (xs : List α) (hidx : idx.Nodup)
    (hi : i ∈ idx) (hadd : (f' i).Perm (xs ++ f i)) (hother : ∀ j ∈ idx, j ≠ i → f' j = f j) :
    (idx.flatMap f').Perm (xs ++ idx.flatMap f) := by
  obtain ⟨A, B, rfl⟩ := append_of_mem hi
  rw [nodup_append, nodup_cons] at hidx
  obtain ⟨-, ⟨hiB, -⟩, hdis⟩ := hidx
  have hA : A.flatMap f' = A.flatMap f := by
    refine flatMap_congr fun j hj => hother j (by simp [hj]) ?_
    exact fun heq => hdis j hj i mem_cons_self heq
  have hB : B.flatMap f' = B.flatMap f := by
    refine flatMap_congr fun j hj => hother j (by simp [hj]) ?_
    exact fun heq => hiB (heq ▸ hj)
  rw [flatMap_append, flatMap_append, flatMap_cons, flatMap_cons, hA, hB]
  calc A.flatMap f ++ (f' i ++ B.flatMap f)
      _ |>.Perm (A.flatMap f ++ ((xs ++ f i) ++ B.flatMap f)) :=
        (hadd.append_right _).append_left _
      _ |>.Perm (xs ++ (A.flatMap f ++ (f i ++ B.flatMap f))) := by
        rw [append_assoc]
        exact perm_append_comm_assoc _ _ _

section insert

variable {new p : ν}

/-- `new` is put below `p` at an index that had no child, and has no children itself. -/
structure Inserts (child child' : ν → ι → Option ν) (p : ν) (i : ι) (new : ν) : Prop where
  free : child p i = none
  link : child' p i = some new
  bare : ∀ j, child' new j = none
  same : ∀ x j, x ≠ new → (x = p → j ≠ i) → child' x j = child x j

theorem nodes_bare (h : ∀ j, child n j = none) : nodes child idx l n = [n] := by
  cases l <;> simp [nodes, h]

theorem inner_bare (h : ∀ j, child n j = none) : ∀ x ∈ inner child idx l n, x = n := by
  cases l <;> simp [inner, h]

theorem Inserts.nodes_eq (hins : Inserts child child' p i new) (hp : p ∉ nodes child idx l n)
    (hnew : new ∉ nodes child idx l n) : nodes child' idx l n = nodes child idx l n := by
  refine nodes_congr fun x hx => funext fun j => hins.same x j ?_ ?_
  · rintro rfl
    exact hnew (inner_subset hx)
  · rintro rfl
    exact absurd (inner_subset hx) hp

theorem Inserts.nodes_perm (hins : Inserts child child' p i new) (hidx : idx.Nodup) (hi : i ∈ idx)
    (hn : (nodes child idx l n).Nodup) (hr : reach child is n = some p) (hl : is.length < l)
    (his : ∀ j ∈ is, j ∈ idx) (hnew : new ∉ nodes child idx l n) :
    (nodes child' idx l n).Perm (new :: nodes child idx l n) := by
  induction is generalizing n l with
  | nil =>
    obtain ⟨l, rfl⟩ := Nat.exists_eq_add_one.2 (Nat.zero_lt_of_lt hl)
    obtain rfl := Option.some.inj hr
    rw [nodes, nodes]
    have hperm := flatMap_perm_of_ne (fun j => ((child n j).map (nodes child idx l)).getD [])
      (fun j => ((child' n j).map (nodes child' idx l)).getD []) [new] hidx hi ?_ ?_
    · exact (hperm.cons n).trans (List.Perm.swap new n _)
    · simp [hins.free, hins.link, nodes_bare hins.bare]
    · intro j hj hji
      have hne : n ≠ new := fun heq => hnew (heq ▸ self_mem_nodes)
      rw [hins.same n j hne fun _ => hji]
      cases hc : child n j with
      | none => rfl
      | some c =>
        simp only [map_some, getD_some]
        refine hins.nodes_eq (nodup_child hn hj hc).2 fun hmem => hnew ?_
        exact mem_nodes_succ.2 (.inr ⟨j, hj, c, hc, hmem⟩)
  | cons k is ih =>
    obtain ⟨l, rfl⟩ := Nat.exists_eq_add_one.2 (Nat.zero_lt_of_lt hl)
    rw [length_cons] at hl
    have hk := his k mem_cons_self
    have his' : ∀ j ∈ is, j ∈ idx := fun j hj => his j (mem_cons_of_mem k hj)
    obtain ⟨c, hc, hp⟩ := Option.bind_eq_some_iff.1 hr
    have hpc := mem_of_reach (l := l) hp (by omega) his'
    obtain ⟨hnc, hroot⟩ := nodup_child hn hk hc
    have hnp : n ≠ p := fun heq => hroot (heq ▸ hpc)
    have hne : n ≠ new := fun heq => hnew (heq ▸ self_mem_nodes)
    have hrow (j : ι) : child' n j = child n j := hins.same n j hne fun heq => absurd heq hnp
    have hbelow {j : ι} {d : ν} (hj : j ∈ idx) (hd : child n j = some d) :
        new ∉ nodes child idx l d := fun hmem =>
      hnew (mem_nodes_succ.2 (.inr ⟨j, hj, d, hd, hmem⟩))
    rw [nodes, nodes]
    have hperm := flatMap_perm_of_ne (fun j => ((child n j).map (nodes child idx l)).getD [])
      (fun j => ((child' n j).map (nodes child' idx l)).getD []) [new] hidx hk ?_ ?_
    · exact (hperm.cons n).trans (List.Perm.swap new n _)
    · simp only [hrow, hc, map_some, getD_some]
      exact ih hnc hp (by omega) his' (hbelow hk hc)
    · intro j hj hjk
      rw [hrow j]
      cases hd : child n j with
      | none => rfl
      | some d =>
        simp only [map_some, getD_some]
        exact hins.nodes_eq (disjoint_children hn hk hj (Ne.symm hjk) hc hd hpc) (hbelow hj hd)

/-- Every path leads where it led, or ended in nothing and now ends in the new node or in
nothing. -/
theorem Inserts.reach_cases (hins : Inserts child child' p i new)
    (hnew : ∀ ks, ks <+: js → reach child ks n ≠ some new) : reach child' js n = reach child js n ∨
      reach child js n = none ∧ (reach child' js n = none ∨ reach child' js n = some new) := by
  induction js generalizing n with
  | nil => exact .inl rfl
  | cons j js ih =>
    have hne : n ≠ new := fun heq => hnew [] nil_prefix (by rw [heq]; rfl)
    by_cases hpi : n = p ∧ j = i
    · obtain ⟨rfl, rfl⟩ := hpi
      right
      rw [reach, reach, hins.free, hins.link, bind_some]
      refine ⟨rfl, ?_⟩
      cases js with
      | nil => exact .inr rfl
      | cons k js =>
        rw [reach, hins.bare]
        exact .inl rfl
    · rw [reach, reach, hins.same n j hne fun hn hj => hpi ⟨hn, hj⟩]
      cases hc : child n j with
      | none => exact .inl rfl
      | some c =>
        rw [bind_some, bind_some]
        refine ih fun ks hks hr => hnew (j :: ks) ((prefix_cons_inj j).2 hks) ?_
        rw [reach, hc]
        exact hr

theorem Inserts.mem_inner (hins : Inserts child child' p i new) (hnew : new ∉ nodes child idx l n)
    (hx : x ∈ inner child' idx l n) : x = new ∨ x ∈ inner child idx l n := by
  cases l with
  | zero => cases hx
  | succ l =>
    obtain ⟨js, hlen, hjs, hr⟩ := exists_reach_of_mem (inner_succ ▸ hx)
    have hpath (ks : List ι) (hks : ks <+: js) (hr : reach child ks n = some new) : False :=
      hnew (mem_of_reach hr (hks.length_le.trans (Nat.le_succ_of_le hlen))
        fun k hk => hjs k (hks.subset hk))
    rcases hins.reach_cases hpath with heq | ⟨-, hnone | hsome⟩
    · exact .inr (mem_inner_of_reach (heq ▸ hr) (Nat.lt_succ_of_le hlen) hjs)
    · cases hr.symm.trans hnone
    · exact .inl (Option.some.inj (hr.symm.trans hsome))

end insert

end Xv6.Radix
