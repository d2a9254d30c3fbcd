import Mathlib.Algebra.Order.Field.Basic
import Mathlib.Order.Hom.Set
import Mathlib.Order.Interval.Set.Defs
import Mathlib.Tactic.Common
import Mathlib.Tactic.FieldSimp
import Mathlib.Tactic.Linarith
import Mathlib.Tactic.Ring

/-! # Rising polylines

A list of points with two coordinates `u` and `v`, both of which rise, is the graph of a function of
`u`, linear between neighbors; looked up the other way round it is the inverse. -/

namespace Roce

variable {α : Type u} {K : Type v}

/-! ## Rising points -/

section Rising

variable [LinearOrder K]

/-- Both coordinates rise. -/
def Rising (u v : α → K) (l : List α) : Prop := l.IsChain fun p q => u p < u q ∧ v p < v q

variable {u v : α → K} {p q z : α} {l : List α}

theorem Rising.symm (h : Rising u v l) : Rising v u l := h.imp fun _ _ => And.symm

theorem rising_cons_cons :
    Rising u v (p :: q :: l) ↔ (u p < u q ∧ v p < v q) ∧ Rising u v (q :: l) :=
  List.isChain_cons_cons

/-- No point is to the right of the last one. -/
theorem Rising.le_last (h : Rising u v (p :: l)) (hz : (p :: l).getLast? = some z) : u p ≤ u z := by
  induction l generalizing p with
  | nil => cases hz; exact le_refl _
  | cons q l ih =>
    obtain ⟨hpq, h⟩ := rising_cons_cons.mp h
    exact hpq.1.le.trans (ih h (by rwa [List.getLast?_cons_cons] at hz))

end Rising

/-! ## A line -/

section Line

variable [Field K]

/-- The line through `p` and `q`, at `x`. -/
def lineAt (u v : α → K) (p q : α) (x : K) : K := v p + (v q - v p) / (u q - u p) * (x - u p)

variable {u v : α → K} {p q : α} {x x' : K}

theorem lineAt_left : lineAt u v p q (u p) = v p := by simp [lineAt]

variable [LinearOrder K] [IsStrictOrderedRing K]

theorem lineAt_right (h : u p < u q) : lineAt u v p q (u q) = v q := by
  rw [lineAt, div_mul_cancel₀ _ (sub_pos.mpr h).ne', add_sub_cancel]

/-- The inverse of a line. -/
theorem lineAt_lineAt (hu : u p < u q) (hv : v p < v q) :
    lineAt v u p q (lineAt u v p q x) = x := by
  have hune := (sub_pos.mpr hu).ne'
  have hvne := (sub_pos.mpr hv).ne'
  rw [lineAt, lineAt, add_sub_cancel_left]
  field_simp
  ring

theorem lineAt_lt (hu : u p < u q) (hv : v p < v q) (hx : x < x') :
    lineAt u v p q x < lineAt u v p q x' := by
  have hslope : 0 < (v q - v p) / (u q - u p) := div_pos (sub_pos.mpr hv) (sub_pos.mpr hu)
  exact add_lt_add_right (mul_lt_mul_of_pos_left (sub_lt_sub_right hx _) hslope) _

theorem lineAt_le (hu : u p < u q) (hv : v p < v q) (hx : x ≤ x') :
    lineAt u v p q x ≤ lineAt u v p q x' := by
  rcases hx.lt_or_eq with hx | rfl
  · exact (lineAt_lt hu hv hx).le
  · exact le_refl _

end Line

/-! ## The polyline -/

section Polyline

variable [Field K] [LinearOrder K]

/-- Linear interpolation, in the first segment that does not end before `x`. -/
def interpolate (u v : α → K) : List α → K → Option K
  | p :: q :: l, x => if x ≤ u q then some (lineAt u v p q x) else interpolate u v (q :: l) x
  | _, _ => none

variable {u v : α → K} {p q z : α} {l : List α} {x x' y y' : K}

/-- Up to the last point there is a value. -/
theorem exists_interpolate (hz : (p :: q :: l).getLast? = some z) (hx : x ≤ u z) :
    ∃ y, interpolate u v (p :: q :: l) x = some y := by
  induction l generalizing p q with
  | nil => exact ⟨_, if_pos (by cases hz; exact hx)⟩
  | cons r l ih =>
    rw [interpolate]
    split
    · exact ⟨_, rfl⟩
    · exact ih (by rwa [List.getLast?_cons_cons] at hz)

/-- And after it there is none. -/
theorem Rising.le_of_interpolate (h : Rising u v (p :: l)) (hz : (p :: l).getLast? = some z)
    (hy : interpolate u v (p :: l) x = some y) : x ≤ u z := by
  induction l generalizing p with
  | nil => cases hy
  | cons q l ih =>
    obtain ⟨-, h⟩ := rising_cons_cons.mp h
    rw [List.getLast?_cons_cons] at hz
    rw [interpolate] at hy
    split at hy
    next hx => exact hx.trans (h.le_last hz)
    next => exact ih h hz hy

variable [IsStrictOrderedRing K]

/-- **Looked up the other way round**, the value gives back where it was looked up. -/
theorem Rising.interpolate_interpolate (h : Rising u v (p :: l)) (hx : u p ≤ x)
    (hy : interpolate u v (p :: l) x = some y) :
    v p ≤ y ∧ (u p < x → v p < y) ∧ interpolate v u (p :: l) y = some x := by
  induction l generalizing p with
  | nil => cases hy
  | cons q l ih =>
    obtain ⟨⟨hu, hv⟩, h⟩ := rising_cons_cons.mp h
    rw [interpolate] at hy
    split at hy
    next hxq =>
      cases hy
      have hle : lineAt u v p q x ≤ v q := (lineAt_le hu hv hxq).trans_eq (lineAt_right hu)
      refine ⟨lineAt_left.symm.trans_le (lineAt_le hu hv hx),
        fun hlt => lineAt_left.symm.trans_lt (lineAt_lt hu hv hlt), ?_⟩
      rw [interpolate, if_pos hle, lineAt_lineAt hu hv]
    next hxq =>
      obtain ⟨-, hlt, hback⟩ := ih h (le_of_not_ge hxq) hy
      have hlt := hlt (lt_of_not_ge hxq)
      refine ⟨(hv.trans hlt).le, fun _ => hv.trans hlt, ?_⟩
      rw [interpolate, if_neg hlt.not_ge, hback]

/-- What is further right is higher. -/
theorem Rising.interpolate_lt (h : Rising u v (p :: l)) (hx : u p ≤ x) (hlt : x < x')
    (hy : interpolate u v (p :: l) x = some y) (hy' : interpolate u v (p :: l) x' = some y') :
    y < y' := by
  induction l generalizing p with
  | nil => cases hy
  | cons q l ih =>
    obtain ⟨⟨hu, hv⟩, h⟩ := rising_cons_cons.mp h
    rw [interpolate] at hy hy'
    split at hy'
    next hxq' =>
      rw [if_pos (hlt.le.trans hxq')] at hy
      cases hy
      cases hy'
      exact lineAt_lt hu hv hlt
    next hxq' =>
      split at hy
      next hxq =>
        cases hy
        have hq := (h.interpolate_interpolate (le_of_not_ge hxq') hy').2.1 (lt_of_not_ge hxq')
        exact ((lineAt_le hu hv hxq).trans_eq (lineAt_right hu)).trans_lt hq
      next hxq => exact ih h (le_of_not_ge hxq) hy hy'

/-- The value inside the polyline. -/
def Rising.valueAt (h : Rising u v (p :: q :: l)) (hz : (p :: q :: l).getLast? = some z)
    (x : Set.Icc (u p) (u z)) : Set.Icc (v p) (v z) :=
  ⟨(interpolate u v (p :: q :: l) x).get
      (Option.isSome_iff_exists.mpr (exists_interpolate hz x.2.2)),
    (h.interpolate_interpolate x.2.1 (Option.some_get _).symm).1,
    h.symm.le_of_interpolate hz (h.interpolate_interpolate x.2.1 (Option.some_get _).symm).2.2⟩

theorem Rising.interpolate_eq_valueAt (h : Rising u v (p :: q :: l))
    (hz : (p :: q :: l).getLast? = some z) (x : Set.Icc (u p) (u z)) :
    interpolate u v (p :: q :: l) x = some (h.valueAt hz x : K) :=
  (Option.some_get _).symm

theorem Rising.strictMono_valueAt (h : Rising u v (p :: q :: l))
    (hz : (p :: q :: l).getLast? = some z) : StrictMono (h.valueAt hz) := fun x x' hlt =>
  h.interpolate_lt x.2.1 hlt (h.interpolate_eq_valueAt hz x) (h.interpolate_eq_valueAt hz x')

theorem Rising.valueAt_valueAt (h : Rising u v (p :: q :: l))
    (hz : (p :: q :: l).getLast? = some z) (x : Set.Icc (u p) (u z)) :
    h.symm.valueAt hz (h.valueAt hz x) = x := by
  have hback := (h.interpolate_interpolate x.2.1 (h.interpolate_eq_valueAt hz x)).2.2
  rw [h.symm.interpolate_eq_valueAt hz] at hback
  exact Subtype.ext (Option.some.inj hback)

/-- **A rising polyline is an order isomorphism** between what its coordinates span. -/
def Rising.orderIso (h : Rising u v (p :: q :: l)) (hz : (p :: q :: l).getLast? = some z) :
    Set.Icc (u p) (u z) ≃o Set.Icc (v p) (v z) :=
  (h.strictMono_valueAt hz).orderIsoOfRightInverse _ (h.symm.valueAt hz)
    (h.symm.valueAt_valueAt hz)

end Polyline

end Roce
