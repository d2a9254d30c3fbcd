import Mathlib.Algebra.BigOperators.Intervals
import Mathlib.Algebra.Order.BigOperators.Group.Finset
import Mathlib.Data.Nat.Periodic
import Mathlib.Tactic.Common
import Mathlib.Tactic.Ring

/-! # Runs around a ring

A periodic predicate is a predicate on a ring. A window of `k + 1` positions on which it holds
either goes on or ends, and one that ends is maximal or goes back; so the counts of windows differ
by the windows that end, and those by the maximal runs. Summed up twice, a run of `m + 1` positions
has `m - k + 1` windows of `k + 1` positions. -/

namespace Roce

open Finset

/-- Counting in one period, from whatever position. -/
theorem count_shift {n : ℕ} {p : ℕ → Prop} [DecidablePred p] (h : Function.Periodic p n) (a : ℕ) :
    Nat.count (fun r => p (r + a)) n = Nat.count p n := by
  have hwrap : Nat.count (fun k => p (n + k)) a = Nat.count p a := by
    simp only [Nat.add_comm n, h _]
  have hadd := (Nat.count_add' p n a).symm.trans (Nat.count_add p n a)
  omega

theorem count_and_add_count_not (p q : ℕ → Prop) [DecidablePred p] [DecidablePred q] (n : ℕ) :
    Nat.count (fun r => p r ∧ q r) n + Nat.count (fun r => p r ∧ ¬q r) n = Nat.count p n := by
  induction n with
  | zero => rfl
  | succ n ih =>
    simp only [Nat.count_succ, ← ih]
    split_ifs <;> grind

section Ring

variable (p : ℕ → Prop)

/-- `p` holds on `k + 1` positions from `r`. -/
abbrev Window (k r : ℕ) : Prop := ∀ d ≤ k, p (r + d)

/-- A window that does not go on. -/
abbrev EndsRun (k r : ℕ) : Prop := Window p k r ∧ ¬p (r + k + 1)

/-- A window that goes neither on nor back, on a ring of `n` positions. -/
abbrev MaximalRun (n k r : ℕ) : Prop := EndsRun p k r ∧ ¬p (r + (n - 1))

variable {p}

theorem window_succ : Window p (k + 1) r ↔ Window p k r ∧ p (r + k + 1) := by
  refine ⟨fun h => ⟨fun d hd => h d (Nat.le_succ_of_le hd), h _ (le_refl _)⟩, fun h d hd => ?_⟩
  rcases Nat.le_succ_iff.mp hd with hd | rfl
  · exact h.1 d hd
  · exact h.2

theorem window_succ' : Window p (k + 1) r ↔ p r ∧ Window p k (r + 1) := by
  refine ⟨fun h => ⟨h 0 (Nat.zero_le _), fun d hd => ?_⟩, fun h d hd => ?_⟩
  · rw [Nat.add_assoc, Nat.add_comm 1]
    exact h (d + 1) (Nat.succ_le_succ hd)
  · cases d with
    | zero => exact h.1
    | succ d =>
      rw [Nat.add_comm d, ← Nat.add_assoc]
      exact h.2 d (Nat.le_of_succ_le_succ hd)

theorem periodic_endsRun (h : Function.Periodic p n) (k : ℕ) :
    Function.Periodic (EndsRun p k) n := by
  intro r
  have hp : ∀ d, p (r + n + d) = p (r + d) := fun d => by rw [Nat.add_right_comm]; exact h _
  simp only [EndsRun, Window, Nat.add_assoc _ k, hp]

variable [DecidablePred p]

theorem count_window_zero (n : ℕ) : Nat.count (Window p 0) n = Nat.count p n := by
  have h : ∀ r, Window p 0 r ↔ p r := fun r =>
    ⟨fun hw => hw 0 (le_refl _), fun hp d hd => Nat.le_zero.mp hd ▸ hp⟩
  exact List.countP_congr fun r _ => by simp only [h]

/-- A window goes on or ends. -/
theorem count_window (n k : ℕ) : Nat.count (Window p k) n =
    Nat.count (Window p (k + 1)) n + Nat.count (EndsRun p k) n := by
  rw [← count_and_add_count_not (Window p k) (fun r => p (r + k + 1))]
  simp only [← window_succ]

/-- A window that ends goes back or is maximal. -/
theorem count_endsRun (h : Function.Periodic p n) (hn : 0 < n) (k : ℕ) :
    Nat.count (EndsRun p k) n =
      Nat.count (EndsRun p (k + 1)) n + Nat.count (MaximalRun p n k) n := by
  rw [← count_and_add_count_not (EndsRun p k) (fun r => p (r + (n - 1))),
    ← count_shift (periodic_endsRun h (k + 1)) (n - 1)]
  congr 2
  funext r
  have hp : ∀ d, p (r + (n - 1) + 1 + d) = p (r + d) := fun d => by
    rw [Nat.add_assoc r, Nat.sub_add_cancel hn, Nat.add_right_comm]
    exact h _
  have hback : Window p k (r + (n - 1) + 1) = Window p k r := by simp only [Window, hp]
  have hend : p (r + (n - 1) + (k + 1) + 1) = p (r + k + 1) :=
    (congrArg p (by omega)).trans (hp (k + 1))
  rw [EndsRun, EndsRun, window_succ', hback, hend, and_right_comm, and_comm (a := p _)]

/-- A window of a whole period is everything. -/
theorem count_window_eq_zero (h : Function.Periodic p n) (hr : r < n) (hp : ¬p r) (hk : n ≤ k + 1) :
    Nat.count (Window p k) n = 0 := by
  refine Nat.count_of_forall_not fun s hs hw => hp ?_
  rcases Nat.lt_or_ge r s with hlt | hge
  · have := hw (r + n - s) (by omega)
    rwa [Nat.add_sub_cancel' (by omega), h r] at this
  · have := hw (r - s) (by omega)
    rwa [Nat.add_sub_cancel' hge] at this

end Ring

/-! ## Triangular sums -/

/-- A sequence that vanishes from `n` is the sum of its differences. -/
theorem eq_sum_Ico {w e : ℕ → ℤ} (hw : ∀ k, w k = w (k + 1) + e k) (hn : w n = 0) (hk : k ≤ n) :
    w k = ∑ m ∈ Ico k n, e m := by
  induction hk using Nat.decreasingInduction with
  | self => rw [Ico_self, sum_empty, hn]
  | of_succ k hk ih => rw [hw, ih, sum_eq_sum_Ico_succ_bot hk, add_comm]

/-- What the second differences `r` make of a sequence, each `r m` as often as it is reached. -/
theorem eq_sum_triangular {w e r : ℕ → ℤ} (hw : ∀ k, w k = w (k + 1) + e k)
    (he : ∀ k, e k = e (k + 1) + r k) (hwn : w n = 0) (hen : e n = 0) (hk : k ≤ n) :
    w k = ∑ m ∈ Ico k n, ((m : ℤ) - k + 1) * r m := by
  induction hk using Nat.decreasingInduction with
  | self => rw [Ico_self, sum_empty, hwn]
  | of_succ k hk ih =>
    have hterm : ∀ m : ℕ, ((m : ℤ) - k + 1) * r m = (m - (k + 1 : ℕ) + 1) * r m + r m := fun m => by
      push_cast
      ring
    rw [hw, ih, eq_sum_Ico he hen hk.le, sum_congr rfl fun m _ => hterm m, sum_add_distrib,
      sum_eq_sum_Ico_succ_bot hk fun m : ℕ => ((m : ℤ) - (k + 1 : ℕ) + 1) * r m]
    simp

end Roce
