import Mathlib.Data.List.Nodup
import Mathlib.Data.List.Rotate
import Mathlib.Data.List.TakeWhile

/-! # Turns in a cycle whose members come and go

The members of a list take turns, in the cyclic order from the place after the last turn on. Members
join at the end of the list and leave anywhere. A member that waits for its turn is overtaken by
each other one once at most: who had its turn is not ahead any more. -/

namespace Roce.Rotation

variable {ι : Type u} {a b j : ι} {l l' A B X Y : List ι} {last k : Nat}

/-- The members in the order of their turns, `last` being the place of the last one. -/
def order (l : List ι) (last : Nat) : List ι := l.rotate (last + 1)

/-- A sublist that keeps a member keeps it between what it keeps before and after it. -/
theorem sublist_around {X' Y' : List ι} (hs : (X' ++ j :: Y').Sublist (X ++ j :: Y))
    (hn : (X ++ j :: Y).Nodup) : X'.Sublist X ∧ Y'.Sublist Y := by
  obtain ⟨hX, hY, hdisjoint⟩ := List.nodup_append.mp hn
  have hjX : j ∉ X := fun h => hdisjoint j h j List.mem_cons_self rfl
  have hjY : j ∉ Y := (List.nodup_cons.mp hY).1
  obtain ⟨l₁, l₂, heq, h₁, h₂⟩ := List.sublist_append_iff.mp hs
  have hboth : ∀ M : List ι, l₂ = M ++ j :: Y' → M = [] ∧ Y'.Sublist Y := by
    rintro M rfl
    cases M with
    | nil => exact ⟨rfl, List.cons_sublist_cons.mp h₂⟩
    | cons c M =>
      -- then `j` is in `Y` as well
      refine absurd ?_ hjY
      rcases List.sublist_cons_iff.mp h₂ with h₂ | ⟨r, hr, h₂⟩
      · exact h₂.subset (List.mem_append_right _ List.mem_cons_self)
      · obtain ⟨-, rfl⟩ := List.cons.inj hr
        exact h₂.subset (List.mem_append_right _ List.mem_cons_self)
  rcases List.append_eq_append_iff.mp heq with ⟨M, hl₁, hM⟩ | ⟨M, hX', hM⟩
  · cases M with
    | nil =>
      rw [List.append_nil] at hl₁
      exact ⟨hl₁ ▸ h₁, (hboth [] hM.symm).2⟩
    | cons c M =>
      obtain ⟨rfl, -⟩ := List.cons.inj hM
      refine absurd (h₁.subset ?_) hjX
      rw [hl₁]
      exact List.mem_append_right _ List.mem_cons_self
  · obtain ⟨rfl, hY'⟩ := hboth M hM
    rw [List.append_nil] at hX'
    exact ⟨hX' ▸ h₁, hY'⟩

theorem order_around (X Y : List ι) (j : ι) : order (X ++ j :: Y) X.length = Y ++ X ++ [j] := by
  have hsplit := List.rotate_append_length_eq (X ++ [j]) Y
  rw [List.append_assoc, List.singleton_append, List.length_append, List.length_singleton] at hsplit
  rw [order, hsplit, List.append_assoc]

/-- The order of the turns is the same cycle from any place on. -/
theorem cycle_eq (hn : (X ++ j :: Y).Nodup)
    (horder : order (X ++ j :: Y) last = A ++ j :: B) : B ++ A = Y ++ X := by
  have hnodup : (A ++ j :: B).Nodup := horder ▸ List.nodup_rotate.mpr hn
  have hjA : j ∉ A := fun h => (List.nodup_append.mp hnodup).2.2 j h j List.mem_cons_self rfl
  have hjB : j ∉ B := (List.nodup_cons.mp (List.nodup_append.mp hnodup).2.1).1
  rw [order, ← List.rotate_mod] at horder
  generalize hplace : (last + 1) % (X ++ j :: Y).length = place at horder
  have hlt : place < (X ++ j :: Y).length := by
    rw [← hplace]
    exact Nat.mod_lt _ (List.length_pos_of_mem (List.mem_append_right X List.mem_cons_self))
  rw [List.rotate_eq_drop_append_take hlt.le] at horder
  rcases Nat.lt_or_ge X.length place with hgt | hle
  · obtain ⟨i, rfl⟩ := Nat.exists_eq_add_of_lt hgt
    have hdrop : (X ++ j :: Y).drop (X.length + i + 1) = Y.drop i := by
      rw [Nat.add_assoc, List.drop_length_add_append, List.drop_succ_cons]
    have htake : (X ++ j :: Y).take (X.length + i + 1) = X ++ j :: Y.take i := by
      rw [Nat.add_assoc, List.take_length_add_append, List.take_succ_cons]
    rw [hdrop, htake, ← List.append_assoc] at horder
    obtain ⟨rfl, -, rfl⟩ := (List.append_cons_inj_of_notMem hjA hjB).mp horder.symm
    rw [← List.append_assoc, List.take_append_drop]
  · rw [List.drop_append_of_le_length hle, List.take_append_of_le_length hle, List.append_assoc,
      List.cons_append] at horder
    obtain ⟨rfl, -, rfl⟩ := (List.append_cons_inj_of_notMem hjA hjB).mp horder.symm
    rw [List.append_assoc, List.take_append_drop]

section
variable [DecidableEq ι]

/-- Who has its turn before `a`. -/
def ahead (a : ι) (l : List ι) : List ι := l.takeWhile (· ≠ a)

theorem ahead_self (a : ι) (l : List ι) : ahead a (a :: l) = [] :=
  List.takeWhile_cons_of_neg (by simp)

theorem ahead_cons (h : b ≠ a) (l : List ι) : ahead a (b :: l) = b :: ahead a l :=
  List.takeWhile_cons_of_pos (by simpa using h)

theorem ahead_append_of_mem (ha : a ∈ A) : ahead a (A ++ B) = ahead a A := by
  induction A with
  | nil => cases ha
  | cons x A ih =>
    rw [List.cons_append]
    by_cases hx : x = a
    · rw [hx, ahead_self, ahead_self]
    · rw [ahead_cons hx, ahead_cons hx, ih ((List.mem_cons.mp ha).resolve_left (Ne.symm hx))]

theorem ahead_append_of_not_mem (ha : a ∉ A) : ahead a (A ++ B) = A ++ ahead a B := by
  unfold ahead
  rw [List.takeWhile_append_of_pos]
  intro x hx
  have hne : x ≠ a := fun heq => ha (heq ▸ hx)
  simpa using hne

/-- Where others leave, nobody gets ahead. -/
theorem ahead_sublist (hs : l'.Sublist l) (ha : a ∈ l') (hn : l.Nodup) (hb : b ∈ ahead a l') :
    b ∈ ahead a l := by
  induction hs with
  | slnil => cases ha
  | cons x hs ih =>
    obtain ⟨hx, hn⟩ := List.nodup_cons.mp hn
    have hne : x ≠ a := fun heq => hx (heq ▸ hs.subset ha)
    rw [ahead_cons hne]
    exact List.mem_cons_of_mem _ (ih ha hn hb)
  | cons_cons x hs ih =>
    by_cases hx : x = a
    · rw [hx, ahead_self] at hb
      cases hb
    · rw [ahead_cons hx] at hb ⊢
      rcases List.mem_cons.mp hb with rfl | hb
      · exact List.mem_cons_self
      · refine List.mem_cons_of_mem _ (ih ?_ (List.nodup_cons.mp hn).2 hb)
        exact (List.mem_cons.mp ha).resolve_left (Ne.symm hx)

/-- **A turn is taken** by `j`, the first of those that are ready, among which is `a`; others may
leave. Then whoever is ahead of `a` was so before, and is not `j`. -/
theorem ahead_of_turn (hn : l.Nodup) (horder : order l last = A ++ j :: B) (hA : a ∉ A) (hj : j ≠ a)
    (hs : l'.Sublist l) (hk : l'[k]? = some j) (ha : a ∈ l') (hb : b ∈ ahead a (order l' k)) :
    b ∈ ahead a (order l last) ∧ b ≠ j := by
  obtain ⟨hlt, hget⟩ := List.getElem?_eq_some_iff.mp hk
  have hl' : l' = l'.take k ++ j :: l'.drop (k + 1) := by
    rw [← hget, List.getElem_cons_drop, List.take_append_drop]
  have hlen : (l'.take k).length = k := List.length_take_of_le hlt.le
  obtain ⟨X, Y, rfl⟩ := List.append_of_mem (hs.subset (List.mem_of_getElem? hk))
  have hmem := hs.subset ha
  rw [hl'] at hs
  obtain ⟨hX, hY⟩ := sublist_around hs hn
  have hcycle := cycle_eq hn horder
  have hafter : order l' k = l'.drop (k + 1) ++ l'.take k ++ [j] := by
    have hlast := order_around (l'.take k) (l'.drop (k + 1)) j
    rwa [← hl', hlen] at hlast
  have hnodup : (A ++ j :: B).Nodup := horder ▸ List.nodup_rotate.mpr hn
  rw [← List.mem_rotate (n := last + 1), ← order, horder] at hmem
  have haB : a ∈ B :=
    (List.mem_cons.mp ((List.mem_append.mp hmem).resolve_left hA)).resolve_left (Ne.symm hj)
  have hsub : (order l' k).Sublist (B ++ (A ++ [j])) := by
    rw [hafter, ← List.append_assoc, hcycle]
    exact (hY.append hX).append (List.Sublist.refl _)
  have hnext : (B ++ (A ++ [j])).Nodup := by
    have hperm : (A ++ j :: B).Perm (B ++ (A ++ [j])) := by
      rw [List.append_cons]
      exact List.perm_append_comm
    exact hperm.nodup_iff.mp hnodup
  have hb := ahead_sublist hsub (List.mem_rotate.mpr ha) hnext hb
  rw [ahead_append_of_mem haB] at hb
  rw [horder, ahead_append_of_not_mem hA, ahead_cons hj]
  refine ⟨List.mem_append_right _ (List.mem_cons_of_mem _ hb), ?_⟩
  rintro rfl
  refine (List.nodup_cons.mp (List.nodup_append.mp hnodup).2.1).1 ?_
  exact (List.takeWhile_prefix _).subset hb

/-- A new member may get ahead, and nobody else. -/
theorem ahead_of_join (hlast : last < l.length) (hb : b ∈ ahead a (order (l ++ [j]) last)) :
    b = j ∨ b ∈ ahead a (order l last) := by
  have hjoined : order (l ++ [j]) last = l.drop (last + 1) ++ j :: l.take (last + 1) := by
    rw [order, List.rotate_eq_drop_append_take (by rw [List.length_append]; omega),
      List.drop_append_of_le_length hlast, List.take_append_of_le_length hlast, List.append_assoc]
    rfl
  rw [hjoined] at hb
  rw [order, List.rotate_eq_drop_append_take hlast]
  by_cases ha : a ∈ l.drop (last + 1)
  · rw [ahead_append_of_mem ha] at hb ⊢
    exact .inr hb
  · rw [ahead_append_of_not_mem ha] at hb ⊢
    rcases List.mem_append.mp hb with hb | hb
    · exact .inr (List.mem_append_left _ hb)
    · by_cases hj : j = a
      · rw [hj, ahead_self] at hb
        cases hb
      · rw [ahead_cons hj] at hb
        exact (List.mem_cons.mp hb).imp id (List.mem_append_right _)

end

end Roce.Rotation
