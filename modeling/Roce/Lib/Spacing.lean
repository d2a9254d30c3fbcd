import Mathlib.Algebra.Order.Ring.Nat
import Mathlib.Data.List.Induction

/-! # A resource that has to rest after each use

`Spaced uses free`: each use began when the rest after the one before it was over, and the resource
may be used again from `free` on. So between two uses at least the rests of all uses in between have
passed. -/

namespace Roce

/-- A use of a resource, and how long the resource rests from its beginning on. -/
structure Use where
  time : Nat
  rest : Nat

inductive Spaced : List Use → Nat → Prop
  | nil : Spaced [] free
  | snoc : Spaced uses free → free ≤ u.time → Spaced (uses ++ [u]) (u.time + u.rest)

namespace Spaced

theorem of_concat (h : Spaced (uses ++ [u]) free) :
    ∃ free', Spaced uses free' ∧ free' ≤ u.time ∧ free = u.time + u.rest := by
  generalize hl : uses ++ [u] = l at h
  cases h with
  | nil => exact absurd hl (List.append_ne_nil_of_right_ne_nil _ (List.cons_ne_nil _ _))
  | snoc h hle =>
    obtain ⟨rfl, hu⟩ := List.append_inj' hl rfl
    obtain rfl := (List.cons.inj hu).1
    exact ⟨_, h, hle, rfl⟩

/-- What has passed since a use, when the resource is free again. -/
theorem total (h : Spaced (l ++ a :: m) free) : a.time + ((a :: m).map Use.rest).sum ≤ free := by
  induction m using List.reverseRecOn generalizing free with
  | nil =>
    obtain ⟨-, -, -, rfl⟩ := h.of_concat
    exact Nat.le_refl _
  | append_singleton m b ih =>
    rw [← List.cons_append, ← List.append_assoc] at h
    obtain ⟨free', h', hle, rfl⟩ := h.of_concat
    have hsum := ih h'
    rw [← List.cons_append, List.map_append, List.sum_append, List.map_singleton,
      List.sum_singleton]
    omega

/-- **The window rule**: from one use to another one pass the rests of it and all uses in
between. -/
theorem window (h : Spaced (l ++ a :: m ++ b :: r) free) :
    a.time + ((a :: m).map Use.rest).sum ≤ b.time := by
  induction r using List.reverseRecOn generalizing free with
  | nil =>
    obtain ⟨free', h', hle, -⟩ := h.of_concat
    exact h'.total.trans hle
  | append_singleton r c ih =>
    rw [← List.cons_append, ← List.append_assoc] at h
    obtain ⟨free', h', -, -⟩ := h.of_concat
    exact ih h'

end Spaced
end Roce
