import Mathlib.Algebra.Order.Ring.Nat
import Mathlib.Algebra.BigOperators.Group.Finset.Piecewise
import Mathlib.Algebra.Order.BigOperators.Group.Finset
import Mathlib.Tactic.Common

/-! # Weights of the items of a list

The total weight of the items of a list that satisfy a predicate, and sums over a family of
counters of which one changes. -/

namespace Roce

open Function

variable {α : Type u} {ι : Type v}

/-- The total weight of the items that satisfy `p`. -/
def tally (w : α → Nat) (p : α → Prop) [DecidablePred p] (l : List α) : Nat :=
  ((l.filter fun a => p a).map w).sum

section
variable {w : α → Nat} {p : α → Prop} [DecidablePred p]

@[simp] theorem tally_nil : tally w p [] = 0 := rfl

theorem tally_cons : tally w p (a :: l) = (if p a then w a else 0) + tally w p l := by
  by_cases h : p a <;> simp [tally, h]

theorem tally_append : tally w p (l ++ l') = tally w p l + tally w p l' := by
  rw [tally, List.filter_append, List.map_append, List.sum_append, tally, tally]

theorem tally_perm (h : l.Perm l') : tally w p l = tally w p l' :=
  ((h.filter _).map _).sum_eq

theorem tally_map (f : β → α) :
    tally w p (l.map f) = tally (fun b => w (f b)) (fun b => p (f b)) l := by
  rw [tally, tally, List.filter_map, List.map_map]
  rfl

theorem tally_congr {q : α → Prop} [DecidablePred q] (h : ∀ a ∈ l, p a ↔ q a) :
    tally w p l = tally w q l := by
  rw [tally, tally, List.filter_congr fun a ha => decide_eq_decide.mpr (h a ha)]

theorem tally_true (w : α → Nat) (l : List α) : tally w (fun _ => True) l = (l.map w).sum := by
  rw [tally, List.filter_eq_self.mpr fun _ _ => decide_eq_true trivial]

theorem tally_mono {q : α → Prop} [DecidablePred q] (h : ∀ a ∈ l, p a → q a) :
    tally w p l ≤ tally w q l := by
  induction l with
  | nil => exact Nat.le_refl _
  | cons a l ih =>
    have hrest := ih fun b hb => h b (List.mem_cons_of_mem _ hb)
    rw [tally_cons, tally_cons]
    by_cases hp : p a
    · rw [if_pos hp, if_pos (h a List.mem_cons_self hp)]
      omega
    · rw [if_neg hp]
      omega

/-- The items that a filter drops count nothing if they do not satisfy the predicate. -/
theorem tally_filter {q : α → Prop} [DecidablePred q] (h : ∀ a ∈ l, p a → q a) :
    tally w p (l.filter fun a => q a) = tally w p l := by
  rw [tally, tally, List.filter_filter]
  congr 2
  refine List.filter_congr fun a ha => ?_
  by_cases hp : p a <;> simp [hp, h a ha]

theorem tally_eq_zero (h : ∀ a ∈ l, ¬p a) : tally w p l = 0 := by
  have hnil : (l.filter fun a => p a) = [] :=
    List.filter_eq_nil_iff.mpr fun a ha => by simpa using h a ha
  rw [tally, hnil, List.map_nil, List.sum_nil]

theorem tally_erase [BEq α] [LawfulBEq α] (h : a ∈ l) :
    tally w p l = (if p a then w a else 0) + tally w p (l.erase a) := by
  rw [tally_perm (List.perm_cons_erase h), tally_cons]

end

/-- The weights by key add up to the whole weight. -/
theorem sum_tally [Fintype ι] [DecidableEq ι] (w : α → Nat) (key : α → ι) (l : List α) :
    ∑ i, tally w (key · = i) l = tally w (fun _ => True) l := by
  induction l with
  | nil => simp
  | cons a l ih => simp only [tally_cons, Finset.sum_add_distrib, ih, Finset.sum_ite_eq,
      Finset.mem_univ, ↓reduceIte]

/-- The weights by key of the items that satisfy a predicate. -/
theorem sum_tally_and [Fintype ι] [DecidableEq ι] (w : α → Nat) (p : α → Prop) [DecidablePred p]
    (key : α → ι) (l : List α) : ∑ i, tally w (fun a => p a ∧ key a = i) l = tally w p l := by
  induction l with
  | nil => simp
  | cons a l ih =>
    simp only [tally_cons, Finset.sum_add_distrib, ih]
    by_cases hp : p a <;> simp [hp]

theorem le_sum [Fintype ι] (f : ι → Nat) (i : ι) : f i ≤ ∑ j, f j :=
  Finset.single_le_sum (fun _ _ => Nat.zero_le _) (Finset.mem_univ i)

theorem tally_key_le [Fintype ι] [DecidableEq ι] (w : α → Nat) (key : α → ι) (l : List α) (i : ι) :
    tally w (key · = i) l ≤ tally w (fun _ => True) l := by
  rw [← sum_tally w key]
  exact le_sum (fun i => tally w (key · = i) l) i

/-- A sum of which one term changes. -/
theorem sum_of_frame [Fintype ι] [DecidableEq ι] {f f' : ι → Nat} (i : ι)
    (h : ∀ j, j ≠ i → f' j = f j) : ∑ j, f' j + f i = ∑ j, f j + f' i := by
  have hrest : ∑ j ∈ Finset.univ.erase i, f' j = ∑ j ∈ Finset.univ.erase i, f j :=
    Finset.sum_congr rfl fun j hj => h j (Finset.ne_of_mem_erase hj)
  have hnew := Finset.add_sum_erase Finset.univ f' (Finset.mem_univ i)
  have hold := Finset.add_sum_erase Finset.univ f (Finset.mem_univ i)
  omega

/-- A sum over counters, of which one changes. -/
theorem sum_update [Fintype ι] [DecidableEq ι] (f : ι → Nat) (g : Nat → Nat) (i : ι) (x : Nat) :
    ∑ j, g (update f i x j) + g (f i) = ∑ j, g (f j) + g x := by
  have hframe : ∀ j, j ≠ i → g (update f i x j) = g (f j) := fun j hj => by rw [update_of_ne hj]
  have h := sum_of_frame i hframe
  simpa only [update_self] using h

theorem sum_ite_le_card [Fintype ι] (p : ι → Prop) [DecidablePred p] :
    ∑ i, (if p i then 1 else 0) ≤ Fintype.card ι := by
  rw [← Finset.card_filter]
  exact Finset.card_le_univ _

/-- A sum of ones that is as large as it can be. -/
theorem sum_ite_eq_card [Fintype ι] {p : ι → Prop} [DecidablePred p]
    (h : ∑ i, (if p i then 1 else 0) = Fintype.card ι) (i : ι) : p i := by
  rw [← Finset.card_filter, Finset.card_eq_iff_eq_univ] at h
  exact (Finset.mem_filter.mp (h ▸ Finset.mem_univ i)).2

end Roce
