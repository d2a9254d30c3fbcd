import Mathlib.Algebra.Order.Ring.Nat
import Mathlib.Data.Finset.Card
import Mathlib.Data.List.Perm.Basic
import Mathlib.Logic.Function.Basic
import Mathlib.Order.Interval.Finset.Nat
import Mathlib.Tactic.Common

/-! # Counting in lists

What a count does when its predicate gets stronger, and what the count in a `flatMap` is when only
one part of it counts or is replaced; and how many numbers of a list have the same quotient. -/

namespace Roce

variable {α : Type u} {β : Type v}

/-- A stronger predicate that drops an element counts less. -/
theorem countP_lt {l : List α} {p q : α → Bool} (h : ∀ x ∈ l, p x → q x) (hx : x ∈ l)
    (hp : p x = false) (hq : q x = true) : l.countP p < l.countP q := by
  obtain ⟨l₁, l₂, rfl⟩ := List.append_of_mem hx
  have h₁ : l₁.countP p ≤ l₁.countP q :=
    List.countP_mono_left fun y hy => h y (List.mem_append_left _ hy)
  have h₂ : l₂.countP p ≤ l₂.countP q :=
    List.countP_mono_left fun y hy => h y (List.mem_append_right _ (List.mem_cons_of_mem _ hy))
  rw [List.countP_append, List.countP_append, List.countP_cons_of_neg (by simp [hp]),
    List.countP_cons_of_pos hq]
  omega

/-- Where at most one element counts, two positions that count are the same. -/
theorem eq_of_countP_le_one {l : List α} {p : α → Bool} {i j : Nat} (h : l.countP p ≤ 1)
    (hi : l[i]? = some x)
    (hj : l[j]? = some y) (hx : p x = true) (hy : p y = true) : i = j := by
  induction l generalizing i j with
  | nil => cases hi
  | cons a l ih =>
    have hpos : ∀ {k z}, l[k]? = some z → p z = true → 0 < l.countP p := fun hk hz =>
      List.countP_pos_iff.mpr ⟨_, List.mem_of_getElem? hk, hz⟩
    rw [List.countP_cons] at h
    cases i with
    | zero =>
      cases j with
      | zero => rfl
      | succ j =>
        obtain rfl : a = x := by simpa using hi
        have := hpos (by simpa using hj) hy
        rw [if_pos hx] at h
        omega
    | succ i =>
      have := hpos (by simpa using hi) hx
      cases j with
      | zero =>
        obtain rfl : a = y := by simpa using hj
        rw [if_pos hy] at h
        omega
      | succ j => exact congrArg _ (ih (by omega) (by simpa using hi) (by simpa using hj))

/-- A `flatMap` with no part that counts. -/
theorem count_flatMap_eq_zero [BEq β] {l : List α} {f : α → List β} {b : β}
    (h : ∀ x ∈ l, (f x).count b = 0) : (l.flatMap f).count b = 0 := by
  induction l with
  | nil => rfl
  | cons x l ih =>
    rw [List.flatMap_cons, List.count_append, h x List.mem_cons_self,
      ih fun y hy => h y (List.mem_cons_of_mem _ hy)]

/-- A `flatMap` of which only one part counts. -/
theorem count_flatMap_of_nodup [BEq β] [DecidableEq α] {l : List α} {f : α → List β} {b : β}
    (hl : l.Nodup) (hx : x ∈ l) (h : ∀ y ∈ l, y ≠ x → (f y).count b = 0) :
    (l.flatMap f).count b = (f x).count b := by
  obtain ⟨l₁, l₂, rfl⟩ := List.append_of_mem hx
  have hnot : x ∉ l₁ ++ l₂ := (List.nodup_cons.mp (List.perm_middle.nodup_iff.mp hl)).1
  have hne : ∀ y ∈ l₁ ++ l₂, y ≠ x := fun y hy heq => hnot (heq ▸ hy)
  rw [List.flatMap_append, List.flatMap_cons, List.count_append, List.count_append,
    count_flatMap_eq_zero, count_flatMap_eq_zero, Nat.zero_add, Nat.add_zero]
  · exact fun y hy => h y (by simp [hy]) (hne y (List.mem_append_right _ hy))
  · exact fun y hy => h y (by simp [hy]) (hne y (List.mem_append_left _ hy))

/-- A `flatMap` of which at most one part is not empty. -/
theorem flatMap_eq_of_unique {l : List α} {f : α → List β} (hl : l.Nodup)
    (hx : x ∉ l → f x = []) (h : ∀ y ∈ l, y ≠ x → f y = []) : l.flatMap f = f x := by
  by_cases hmem : x ∈ l
  · obtain ⟨l₁, l₂, rfl⟩ := List.append_of_mem hmem
    have hnot : x ∉ l₁ ++ l₂ := (List.nodup_cons.mp (List.perm_middle.nodup_iff.mp hl)).1
    have hne : ∀ y ∈ l₁ ++ l₂, y ≠ x := fun y hy heq => hnot (heq ▸ hy)
    have hnil : ∀ l' : List α, (∀ y ∈ l', y ∈ l₁ ++ l₂) → l'.flatMap f = [] := by
      intro l' hsub
      refine List.flatMap_eq_nil_iff.mpr fun y hy => h y ?_ (hne y (hsub y hy))
      have := hsub y hy
      simp only [List.mem_append, List.mem_cons] at this ⊢
      exact this.imp id .inr
    rw [List.flatMap_append, List.flatMap_cons, hnil l₁ fun y hy => List.mem_append_left _ hy,
      hnil l₂ fun y hy => List.mem_append_right _ hy, List.nil_append, List.append_nil]
  · rw [hx hmem]
    refine List.flatMap_eq_nil_iff.mpr fun y hy => h y hy ?_
    rintro rfl
    exact hmem hy

/-- A count for which one item counts more. -/
theorem countP_eq_succ_of_nodup {l : List α} {p q : α → Bool} (hl : l.Nodup) (hx : x ∈ l)
    (h : ∀ y ∈ l, y ≠ x → p y = q y) (hp : p x = false) (hq : q x = true) :
    l.countP q = l.countP p + 1 := by
  obtain ⟨l₁, l₂, rfl⟩ := List.append_of_mem hx
  have hnot : x ∉ l₁ ++ l₂ := (List.nodup_cons.mp (List.perm_middle.nodup_iff.mp hl)).1
  have hcongr : ∀ l' : List α, (∀ y ∈ l', y ∈ l₁ ++ l₂) → l'.countP q = l'.countP p := by
    intro l' hsub
    refine List.countP_congr fun y hy => ?_
    have hmem := List.mem_append.mp (hsub y hy)
    rw [h y (by rcases hmem with hmem | hmem <;> simp [hmem]) fun heq => hnot (heq ▸ hsub y hy)]
  rw [List.countP_append, List.countP_append, List.countP_cons_of_pos hq,
    List.countP_cons_of_neg (by simp [hp]), hcongr l₁ fun y hy => List.mem_append_left _ hy,
    hcongr l₂ fun y hy => List.mem_append_right _ hy]
  omega

/-- The parts of a `flatMap`, of which one is replaced. -/
theorem flatMap_update_perm [DecidableEq ι] {keys : List ι} (hnodup : keys.Nodup) (hi : i ∈ keys)
    (f : ι → List α) (xs : List α) :
    (f i ++ keys.flatMap (Function.update f i xs)).Perm (xs ++ keys.flatMap f) := by
  induction keys with
  | nil => cases hi
  | cons k keys ih =>
    obtain ⟨hk, hnodup⟩ := List.nodup_cons.mp hnodup
    rw [List.flatMap_cons, List.flatMap_cons]
    rcases List.mem_cons.mp hi with rfl | hi
    · have hrest : keys.flatMap (Function.update f i xs) = keys.flatMap f := by
        refine List.flatMap_congr fun j hj => Function.update_of_ne ?_ ..
        rintro rfl
        exact hk hj
      rw [hrest, Function.update_self]
      exact List.perm_append_comm_assoc ..
    · have hne : k ≠ i := fun h => hk (h ▸ hi)
      rw [Function.update_of_ne hne]
      exact ((List.perm_append_comm_assoc ..).trans ((ih hnodup hi).append_left _)).trans
        (List.perm_append_comm_assoc ..)

/-- The numbers of an interval below `m`. -/
theorem countP_range (a b m : Nat) :
    (List.range m).countP (fun x => a ≤ x ∧ x < b) = min m b - a := by
  induction m with
  | zero => exact (Nat.zero_sub _).symm.trans (by rw [Nat.zero_min])
  | succ m ih =>
    rw [List.range_succ, List.countP_append, List.countP_singleton, ih]
    split
    next h =>
      have h := of_decide_eq_true h
      omega
    next h =>
      have h : ¬(a ≤ m ∧ m < b) := by simpa using h
      omega

/-! ## Numbers with the same quotient -/

/-- The numbers of a list with a given quotient. -/
theorem toFinset_filter_div (l : List Nat) (hm : 0 < m) :
    (l.filter (· / m = j)).toFinset = (Finset.Ico (j * m) (j * m + m)).filter (· ∈ l) := by
  ext x
  simp only [List.mem_toFinset, List.mem_filter, decide_eq_true_eq, Finset.mem_filter,
    Finset.mem_Ico]
  rw [Nat.div_eq_iff hm, and_comm]
  refine and_congr_left fun _ => ?_
  omega

/-- A list without duplicates has at most `m` numbers with the same quotient by `m`. -/
theorem countP_div_le {l : List Nat} (hl : l.Nodup) (hm : 0 < m) : l.countP (· / m = j) ≤ m := by
  rw [List.countP_eq_length_filter, ← List.toFinset_card_of_nodup (hl.filter _),
    toFinset_filter_div l hm]
  refine (Finset.card_filter_le _ _).trans ?_
  rw [Nat.card_Ico, Nat.add_sub_cancel_left]

/-- It has `m` of them only if it has all. -/
theorem countP_div_eq_iff {l : List Nat} (hl : l.Nodup) (hm : 0 < m) :
    l.countP (· / m = j) = m ↔ ∀ x, x / m = j → x ∈ l := by
  have hcard : (Finset.Ico (j * m) (j * m + m)).card = m := by
    rw [Nat.card_Ico, Nat.add_sub_cancel_left]
  rw [List.countP_eq_length_filter, ← List.toFinset_card_of_nodup (hl.filter _),
    toFinset_filter_div l hm]
  constructor
  · intro h x hx
    refine Finset.card_filter_eq_iff.mp (h.trans hcard.symm) x ?_
    have := (Nat.div_eq_iff hm).mp hx
    rw [Finset.mem_Ico]
    omega
  · intro h
    refine (Finset.card_filter_eq_iff.mpr fun x hx => h x ?_).trans hcard
    rw [Finset.mem_Ico] at hx
    rw [Nat.div_eq_iff hm]
    omega

end Roce
