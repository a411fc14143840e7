import Xv6.Ring

/-!
# Doubly linked rings

A ring with links both ways through an element `h`, the head, that is always part of it. The
elements other than the head are given in order; read backwards they are the ring of the links back.
`unlink` takes an element out wherever it stands, `insert` puts one in after the head.
-/

namespace Xv6.Ring

open Function List

variable {α : Type*} {next prev next' prev' f f' : α → α} {h p b : α} {l l₁ l₂ : List α}

structure Links (next prev : α → α) (h : α) (l : List α) : Prop where
  nodup : (h :: l).Nodup
  forward : IsRing next (h :: l)
  backward : IsRing prev (h :: l.reverse)

theorem Links.symm (hl : Links next prev h l) : Links prev next h l.reverse := by
  refine ⟨?_, hl.backward, ?_⟩
  · have hnodup := hl.nodup
    rw [nodup_cons] at hnodup ⊢
    exact ⟨fun hmem => hnodup.1 (mem_reverse.1 hmem), nodup_reverse.2 hnodup.2⟩
  · rw [reverse_reverse]
    exact hl.forward

theorem Links.empty (hnext : next h = h) (hprev : prev h = h) : Links next prev h [] := by
  refine ⟨nodup_singleton h, ?_, ?_⟩
  · rw [isRing_cons, nil_append, isChain_cons_cons]
    exact ⟨hnext, .singleton h⟩
  · rw [reverse_nil, isRing_cons, nil_append, isChain_cons_cons]
    exact ⟨hprev, .singleton h⟩

theorem IsRing.eq_head (hring : IsRing f (h :: l)) (hp : (h :: l).getLast? = some p) : f p = h := by
  obtain ⟨front, hfront⟩ := List.getLast?_eq_some_iff.1 hp
  rw [isRing_cons, ← cons_append, hfront, append_assoc, isChain_append] at hring
  have hlast := hring.2.1
  rw [singleton_append, isChain_cons_cons] at hlast
  exact hlast.1

theorem Links.prev_eq (hl : Links next prev h (l₁ ++ b :: l₂)) :
    (h :: l₁).getLast? = some (prev b) := by
  have hback := hl.backward
  rw [reverse_append, reverse_cons, append_assoc] at hback
  rcases eq_nil_or_concat' l₁ with rfl | ⟨front, p, rfl⟩
  · have hhead : prev b = h := hback.eq_head (by
      rw [reverse_nil, append_nil, List.getLast?_cons, List.getLast?_concat]
      rfl)
    rw [hhead]
    rfl
  · have hnext : prev b = p := by
      rw [reverse_append, reverse_singleton, ← cons_append] at hback
      exact IsRing.next_eq hback
    rw [hnext, ← cons_append, List.getLast?_concat]

theorem Links.next_eq (hl : Links next prev h (l₁ ++ b :: l₂)) :
    (h :: l₂.reverse).getLast? = some (next b) := by
  have hsymm := hl.symm
  rw [reverse_append, reverse_cons, append_assoc] at hsymm
  exact hsymm.prev_eq

theorem Links.head_eq (hl : Links next prev h l) : (h :: l.reverse).getLast? = some (next h) := by
  cases l with
  | nil =>
    have hself : next h = h := hl.forward.eq_head rfl
    rw [hself]
    rfl
  | cons y l =>
    rw [IsRing.next_eq (l := []) hl.forward, reverse_cons, ← cons_append, List.getLast?_concat]

theorem Links.next_ne (hl : Links next prev h (l₁ ++ b :: l₂)) : next b ≠ b := by
  intro heq
  have hmem : b ∈ h :: l₂.reverse := heq ▸ mem_of_getLast? hl.next_eq
  have hnodup := hl.nodup
  rw [← cons_append, nodup_middle, nodup_cons] at hnodup
  refine hnodup.1 ?_
  rw [mem_cons, mem_reverse] at hmem
  rcases hmem with rfl | hmem
  · exact mem_append_left _ mem_cons_self
  · exact mem_append_right _ hmem

theorem IsRing.unlink (hring : IsRing f (h :: (l₁ ++ b :: l₂))) (hp : (h :: l₁).getLast? = some p)
    (hfp : f' p = f b) (hf : ∀ x ∈ h :: (l₁ ++ l₂), x ≠ p → f' x = f x)
    (hnodup : (h :: (l₁ ++ b :: l₂)).Nodup) : IsRing f' (h :: (l₁ ++ l₂)) := by
  obtain ⟨front, hfront⟩ := List.getLast?_eq_some_iff.1 hp
  have hsplit (l : List α) : h :: (l₁ ++ l) = front ++ p :: l := by
    rw [← cons_append, hfront, append_assoc, singleton_append]
  rw [hsplit] at hring hf ⊢
  rw [hsplit, nodup_middle] at hnodup
  refine (hring.enter.remove hfp fun x hx => hf x ?_ ?_).leave
  · rcases mem_append.1 hx with hx | hx
    · exact mem_append_right _ (mem_cons_of_mem p hx)
    · exact mem_append_left _ hx
  · rintro rfl
    rw [nodup_cons] at hnodup
    refine hnodup.1 ?_
    rcases mem_append.1 hx with hx | hx
    · exact mem_append_right _ (mem_cons_of_mem b hx)
    · exact mem_append_left _ hx

section edits

variable [DecidableEq α]

theorem Links.unlink (hl : Links next prev h (l₁ ++ b :: l₂)) :
    Links (update next (prev b) (next b)) (update prev (next b) (prev b)) h (l₁ ++ l₂) := by
  have hback := hl.backward
  have hbackNodup := hl.symm.nodup
  rw [reverse_append, reverse_cons, append_assoc] at hback hbackNodup
  refine ⟨?_, ?_, ?_⟩
  · have hnodup := hl.nodup
    rw [← cons_append, nodup_middle] at hnodup
    exact (nodup_cons.1 hnodup).2
  · refine hl.forward.unlink hl.prev_eq (update_self ..) (fun x _ hx => ?_) hl.nodup
    exact update_of_ne hx ..
  · rw [reverse_append]
    refine hback.unlink hl.next_eq (update_self ..) (fun x _ hx => ?_) hbackNodup
    exact update_of_ne hx ..

theorem Links.insert (hl : Links next prev h l) (hb : b ∉ h :: l) :
    Links (update (update next b (next h)) h b)
      (update (update prev b h) (next h) b) h (b :: l) := by
  have hne : b ≠ h := fun heq => hb (heq ▸ mem_cons_self)
  have hfirst := hl.head_eq
  obtain ⟨front, hfront⟩ := List.getLast?_eq_some_iff.1 hfirst
  have hmem : ∀ x, x ∈ front ++ [next h] → x ∈ h :: l := by
    intro x hx
    rw [← hfront, mem_cons, mem_reverse] at hx
    exact mem_cons.2 hx
  have hlast : next h ∈ h :: l := hmem _ (mem_append_right _ mem_cons_self)
  have hnodup : next h ∉ front := by
    have hback := hl.symm.nodup
    rw [hfront, nodup_middle, append_nil, nodup_cons] at hback
    exact hback.1
  refine ⟨?_, hl.forward.insert (update_self ..) ?_ fun x hx => ?_, ?_⟩
  · have hold := hl.nodup
    rw [nodup_cons] at hold ⊢
    rw [nodup_cons, mem_cons]
    rw [mem_cons] at hb
    exact ⟨fun hin => hin.elim (fun heq => hne heq.symm) hold.1, fun hin => hb (.inr hin), hold.2⟩
  · rw [update_of_ne hne, update_self]
  · have hxh : x ≠ h := fun heq => (nodup_cons.1 hl.nodup).1 (heq ▸ hx)
    have hxb : x ≠ b := fun heq => hb (heq ▸ mem_cons_of_mem h hx)
    rw [update_of_ne hxh, update_of_ne hxb]
  · -- on the way back `b` comes after what was the first element
    have hback := hl.backward
    rw [reverse_cons, ← cons_append, hfront, append_assoc]
    rw [hfront] at hback
    have hback' : prev (next h) = h := hl.backward.eq_head hfirst
    have hne' : b ≠ next h := fun heq => hb (heq.symm ▸ hlast)
    have hput : IsRing (update (update prev b h) (next h) b) (next h :: ([b] ++ front)) := by
      refine hback.enter.insert (update_self ..) ?_ fun x hx => ?_
      · rw [hback', update_of_ne hne', update_self]
      · rw [nil_append] at hx
        have hxn : x ≠ next h := fun heq => hnodup (heq ▸ hx)
        have hxb : x ≠ b := fun heq => hb (heq ▸ hmem x (mem_append_left _ hx))
        rw [update_of_ne hxn, update_of_ne hxb]
    exact hput.leave

end edits

/-- A walk from the head on ends at the first element where `stop` holds, or is back at the head. -/
theorem Links.walk_eq {stop : α → Bool} {n : ℕ} (hl : Links next prev h l) (hstop : stop h = true)
    (hn : l.length < n) : walk next stop n (next h) = (l ++ [h]).find? stop := by
  have hchain := isRing_cons.1 hl.forward
  have hhead := head_of_isChain hchain
  cases hlist : l ++ [h] with
  | nil => simp at hlist
  | cons x rest =>
    rw [hlist] at hchain hhead
    have hlen := congrArg List.length hlist
    rw [length_append, length_singleton, length_cons] at hlen
    obtain rfl : x = next h := by simpa using hhead
    refine walk_eq_find hchain.tail ⟨h, ?_, hstop⟩ (by omega)
    rw [← hlist]
    exact mem_append_right _ mem_cons_self

end Xv6.Ring
