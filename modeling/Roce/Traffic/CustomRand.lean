import Mathlib.Analysis.Normed.Field.Lemmas
import Roce.Lib.Polyline

/-! # Random flow sizes

The generator of flow sizes with a given distribution, a list of points from the percentile 0 to the
percentile 100: the two lookups between sizes and percentiles, the integral of the sizes up to a
percentile, and their average. -/

namespace Roce

/-- A value and its percentile. -/
structure CdfPoint where
  x : Rat
  y : Rat
deriving DecidableEq

/-! ## The generator -/

/-- The loop of `testCdf`. -/
def rises : List CdfPoint → Bool
  | p :: q :: l => if q.y ≤ p.y ∨ q.x ≤ p.x then false else rises (q :: l)
  | _ => true

/-- `none` is the `IndexError` of a list without points. -/
def testCdf (cdf : List CdfPoint) : Option Bool := do
  let first ← cdf.head?
  if first.y ≠ 0 then return false
  let last ← cdf.getLast?
  if last.y ≠ 100 then return false
  return rises cdf

/-- A generator after `setCdf`. -/
structure CustomRand where
  cdf : List CdfPoint
  accepted : testCdf cdf = some true

def setCdf (cdf : List CdfPoint) : Option CustomRand :=
  if h : testCdf cdf = some true then some ⟨cdf, h⟩ else none

/-- The loop of `getIntegralY`. -/
def integralLoop (y : Rat) : List CdfPoint → Rat → Rat
  | p :: q :: l, s =>
    if y ≤ q.y then
      s + 1 / 2 * (p.x + p.x + (q.x - p.x) / (q.y - p.y) * (y - p.y)) * (y - p.y) / 100
    else integralLoop y (q :: l) (s + 1 / 2 * (q.x + p.x) * (q.y - p.y) / 100)
  | _, s => s

namespace CustomRand

theorem nonempty (c : CustomRand) : c.cdf ≠ [] := by
  intro h
  have := c.accepted
  rw [h] at this
  cases this

/-- `self.cdf[0]` -/
def first (c : CustomRand) : CdfPoint := c.cdf.head c.nonempty

/-- `self.cdf[-1]` -/
def last (c : CustomRand) : CdfPoint := c.cdf.getLast c.nonempty

def getAvg (c : CustomRand) : Rat :=
  let (s, _) := c.cdf.tail.foldl
    (fun (s, last) p => (s + (p.x + last.x) / 2 * (p.y - last.y), p)) ((0 : Rat), c.first)
  s / 100

/-- The value `-1` is for an `x` out of range. -/
def getPercentileFromValue (c : CustomRand) (x : Rat) : Option Rat :=
  if x < 0 ∨ c.last.x < x then some (-1) else interpolate CdfPoint.x CdfPoint.y c.cdf x

def getValueFromPercentile (c : CustomRand) (y : Rat) : Option Rat :=
  interpolate CdfPoint.y CdfPoint.x c.cdf y

def getIntegralY (c : CustomRand) (y : Rat) : Rat := integralLoop y c.cdf 0

end CustomRand

/-! ## Accepted distributions -/

theorem rises_iff : rises l = true ↔ Rising CdfPoint.x CdfPoint.y l := by
  induction l with
  | nil => simp [rises, Rising]
  | cons p l ih =>
    cases l with
    | nil => simp [rises, Rising]
    | cons q l =>
      rw [rises, rising_cons_cons, ← ih]
      split <;> grind

theorem testCdf_iff : testCdf l = some true ↔
    (∃ p, l.head? = some p ∧ p.y = 0) ∧ (∃ z, l.getLast? = some z ∧ z.y = 100) ∧
      Rising CdfPoint.x CdfPoint.y l := by
  rw [testCdf, ← rises_iff]
  cases hfirst : l.head? with
  | none => simp
  | some p =>
    cases hlast : l.getLast? with
    | none => simp [List.getLast?_eq_none_iff.mp hlast] at hfirst
    | some z =>
      by_cases hp : p.y = 0 <;> by_cases hz : z.y = 100 <;> simp [hp, hz]

namespace CustomRand

variable (c : CustomRand)

theorem head?_cdf : c.cdf.head? = some c.first := List.head?_eq_some_head _

theorem getLast?_cdf : c.cdf.getLast? = some c.last := List.getLast?_eq_some_getLast _

theorem y_first : c.first.y = 0 := by
  obtain ⟨⟨p, hp, hy⟩, -⟩ := testCdf_iff.mp c.accepted
  rwa [← Option.some.inj (c.head?_cdf.symm.trans hp)] at hy

theorem y_last : c.last.y = 100 := by
  obtain ⟨-, ⟨z, hz, hy⟩, -⟩ := testCdf_iff.mp c.accepted
  rwa [← Option.some.inj (c.getLast?_cdf.symm.trans hz)] at hy

theorem rising : Rising CdfPoint.x CdfPoint.y c.cdf := (testCdf_iff.mp c.accepted).2.2

/-- There is a segment. -/
theorem exists_cdf : ∃ q l, c.cdf = c.first :: q :: l := by
  have hfirst := c.head?_cdf
  have hlast := c.getLast?_cdf
  match hcdf : c.cdf with
  | [] => exact absurd hcdf c.nonempty
  | [p] =>
    rw [hcdf] at hfirst hlast
    have hpoint : c.first = c.last := (Option.some.inj hfirst).symm.trans (Option.some.inj hlast)
    have := c.y_first.symm.trans ((congrArg _ hpoint).trans c.y_last)
    norm_num at this
  | p :: q :: l =>
    rw [hcdf] at hfirst
    exact ⟨q, l, by rw [← Option.some.inj hfirst]⟩

end CustomRand

/-! ## The lookups -/

namespace CustomRand

variable (c : CustomRand)

/-- The sizes and their percentiles. -/
theorem exists_orderIso (h : 0 ≤ c.first.x) :
    ∃ e : Set.Icc c.first.x c.last.x ≃o Set.Icc (0 : Rat) 100,
      (∀ x : Set.Icc c.first.x c.last.x, c.getPercentileFromValue x = some (e x : Rat)) ∧
      ∀ y : Set.Icc (0 : Rat) 100, c.getValueFromPercentile y = some (e.symm y : Rat) := by
  obtain ⟨q, l, hcdf⟩ := c.exists_cdf
  have hrising := hcdf ▸ c.rising
  have hlast := hcdf ▸ c.getLast?_cdf
  have hspan : Set.Icc c.first.y c.last.y = Set.Icc 0 100 := by rw [c.y_first, c.y_last]
  refine ⟨(hrising.orderIso hlast).trans (OrderIso.setCongr _ _ hspan), fun x => ?_, fun y => ?_⟩
  · have hrange : ¬((x : Rat) < 0 ∨ c.last.x < x) :=
      not_or.mpr ⟨(h.trans x.2.1).not_gt, x.2.2.not_gt⟩
    rw [getPercentileFromValue, if_neg hrange, hcdf]
    exact hrising.interpolate_eq_valueAt hlast x
  · rw [getValueFromPercentile, hcdf]
    exact hrising.symm.interpolate_eq_valueAt hlast ⟨y, by rw [hspan]; exact y.2⟩

end CustomRand

/-! ## The integral -/

theorem integralLoop_eq_add (y : Rat) (l : List CdfPoint) (s : Rat) :
    integralLoop y l s = s + integralLoop y l 0 := by
  induction l generalizing s with
  | nil => exact (add_zero s).symm
  | cons p l ih =>
    cases l with
    | nil => exact (add_zero s).symm
    | cons q l =>
      rw [integralLoop, integralLoop, ih, ih (0 + _)]
      split <;> ring

/-- The area of a whole segment. -/
def area (p q : CdfPoint) : Rat := 1 / 2 * (q.x + p.x) * (q.y - p.y) / 100

/-- The area of a segment up to `y`. -/
def areaUpTo (p q : CdfPoint) (y : Rat) : Rat :=
  1 / 2 * (p.x + p.x + (q.x - p.x) / (q.y - p.y) * (y - p.y)) * (y - p.y) / 100

theorem integralLoop_cons (y : Rat) (p q : CdfPoint) (l : List CdfPoint) :
    integralLoop y (p :: q :: l) 0 =
      if y ≤ q.y then areaUpTo p q y else area p q + integralLoop y (q :: l) 0 := by
  rw [integralLoop, integralLoop_eq_add, zero_add, zero_add]
  rfl

theorem areaUpTo_left (p q : CdfPoint) : areaUpTo p q p.y = 0 := by simp [areaUpTo]

theorem areaUpTo_right (h : p.y < q.y) : areaUpTo p q q.y = area p q := by
  have hne := (sub_pos.mpr h).ne'
  rw [areaUpTo, area, div_mul_cancel₀ _ hne]
  ring

theorem continuous_areaUpTo (p q : CdfPoint) : Continuous (areaUpTo p q) := by
  have hsub : Continuous fun y => y - p.y := continuous_id.sub continuous_const
  unfold areaUpTo
  exact ((((hsub.const_mul _).const_add _).const_mul _).mul hsub).div_const _

/-- The integral starts at the first point. -/
theorem integralLoop_first (h : Rising CdfPoint.x CdfPoint.y (p :: l)) :
    integralLoop p.y (p :: l) 0 = 0 := by
  cases l with
  | nil => rfl
  | cons q l =>
    obtain ⟨⟨-, hy⟩, -⟩ := rising_cons_cons.mp h
    rw [integralLoop_cons, if_pos hy.le, areaUpTo_left]

theorem continuous_integralLoop (h : Rising CdfPoint.x CdfPoint.y l) :
    Continuous fun y => integralLoop y l 0 := by
  induction l with
  | nil => exact continuous_const
  | cons p l ih =>
    cases l with
    | nil => exact continuous_const
    | cons q l =>
      obtain ⟨⟨-, hy⟩, h⟩ := rising_cons_cons.mp h
      simp only [integralLoop_cons]
      refine (continuous_areaUpTo p q).if_le ((ih h).const_add _) continuous_id continuous_const ?_
      rintro y (rfl : y = q.y)
      rw [areaUpTo_right hy, integralLoop_first h, add_zero]

/-- A segment with sizes that are not negative has more area the further it goes. -/
theorem areaUpTo_le (hx : 0 ≤ p.x) (hpq : p.x < q.x ∧ p.y < q.y) (hy : p.y ≤ y) (hle : y ≤ y') :
    areaUpTo p q y ≤ areaUpTo p q y' := by
  have hslope : 0 < (q.x - p.x) / (q.y - p.y) :=
    div_pos (sub_pos.mpr hpq.1) (sub_pos.mpr hpq.2)
  have hy := sub_nonneg.mpr hy
  have hy' := hy.trans (sub_le_sub_right hle p.y)
  unfold areaUpTo
  gcongr

theorem integralLoop_mono (hx : 0 ≤ p.x) (h : Rising CdfPoint.x CdfPoint.y (p :: l))
    (hy : p.y ≤ y) (hle : y ≤ y') : integralLoop y (p :: l) 0 ≤ integralLoop y' (p :: l) 0 := by
  induction l generalizing p y with
  | nil => exact le_refl _
  | cons q l ih =>
    obtain ⟨hpq, h⟩ := rising_cons_cons.mp h
    have hxq := hx.trans hpq.1.le
    rw [integralLoop_cons, integralLoop_cons]
    split
    next hyq =>
      split
      next => exact areaUpTo_le hx hpq hy hle
      next hyq' =>
        have hpart : areaUpTo p q y ≤ area p q :=
          (areaUpTo_le hx hpq hy hyq).trans_eq (areaUpTo_right hpq.2)
        have hrest : 0 ≤ integralLoop y' (q :: l) 0 :=
          (integralLoop_first h).symm.trans_le (ih hxq h (le_refl _) (le_of_not_ge hyq'))
        linarith
    next hyq =>
      have hyq := lt_of_not_ge hyq
      rw [if_neg (hyq.trans_le hle).not_ge]
      exact add_le_add_right (ih hxq h hyq.le hle) _

/-- The loop of `getAvg`. -/
theorem foldl_getAvg (h : Rising CdfPoint.x CdfPoint.y (p :: l)) (hz : (p :: l).getLast? = some z)
    (s : Rat) : (l.foldl (fun (s, last) p => (s + (p.x + last.x) / 2 * (p.y - last.y), p))
      (s, p)).1 / 100 = s / 100 + integralLoop z.y (p :: l) 0 := by
  induction l generalizing p s with
  | nil => exact (add_zero _).symm
  | cons q l ih =>
    obtain ⟨hpq, h⟩ := rising_cons_cons.mp h
    rw [List.getLast?_cons_cons] at hz
    have hcons : integralLoop z.y (p :: q :: l) 0 = area p q + integralLoop z.y (q :: l) 0 := by
      rw [integralLoop_cons]
      split
      next hle =>
        rw [hle.antisymm (h.symm.le_last hz), areaUpTo_right hpq.2, integralLoop_first h, add_zero]
      next => rfl
    rw [List.foldl_cons, ih h hz, hcons, area]
    ring

namespace CustomRand

/-- **The conversions of the generator**: sizes and percentiles are looked up by an order
isomorphism and its inverse; the integral rises without jumps, up to the average. -/
theorem conversions (c : CustomRand) (h : ∀ p ∈ c.cdf, 0 ≤ p.x) :
    (∃ e : Set.Icc c.first.x c.last.x ≃o Set.Icc (0 : Rat) 100,
      (∀ x : Set.Icc c.first.x c.last.x, c.getPercentileFromValue x = some (e x : Rat)) ∧
      ∀ y : Set.Icc (0 : Rat) 100, c.getValueFromPercentile y = some (e.symm y : Rat)) ∧
    MonotoneOn c.getIntegralY (Set.Icc 0 100) ∧
    (∀ p ∈ c.cdf, ContinuousAt c.getIntegralY p.y) ∧
    c.getIntegralY 100 = c.getAvg := by
  obtain ⟨q, l, hcdf⟩ := c.exists_cdf
  have hrising := hcdf ▸ c.rising
  have hfirst : 0 ≤ c.first.x := h _ (by simp [hcdf])
  refine ⟨c.exists_orderIso hfirst, fun y hy y' _ hle => ?_, fun p _ => ?_, ?_⟩
  · rw [getIntegralY, getIntegralY, hcdf]
    exact integralLoop_mono hfirst hrising (c.y_first.trans_le hy.1) hle
  · exact (continuous_integralLoop c.rising).continuousAt
  · have havg := foldl_getAvg hrising (hcdf ▸ c.getLast?_cdf) 0
    rw [zero_div, zero_add, c.y_last] at havg
    rw [getIntegralY, getAvg, hcdf, List.tail_cons]
    exact havg.symm

/-- `AliStorage2019.txt` -/
def aliStorage : CustomRand where
  cdf := [⟨0, 0⟩, ⟨4000, 22.93⟩, ⟨8000, 69.21⟩, ⟨16000, 80.61⟩, ⟨32000, 90.47⟩, ⟨64000, 93.53⟩,
    ⟨128000, 96.77⟩, ⟨256000, 97.53⟩, ⟨2000000, 100⟩]
  accepted := by decide +kernel

theorem conversions_aliStorage : aliStorage.getIntegralY 100 = 204349 / 5 :=
  (aliStorage.conversions (by decide +kernel)).2.2.2.trans (by decide +kernel)

end CustomRand

end Roce
