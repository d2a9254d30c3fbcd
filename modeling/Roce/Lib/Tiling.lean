import Mathlib.Data.List.Basic
import Mathlib.Data.List.Infix

/-! # Lists that tile an interval

`Tiles lo hi a l b`: the half-open intervals `[lo x, hi x)` of the elements of `l` are
non-empty, follow one another in list order, start at `a` and end at `b`. -/

namespace Roce

variable {α : Type u} {lo hi : α → Nat}

/-- The intervals of `l` follow one another from `a` to `b`. -/
def Tiles (lo hi : α → Nat) : Nat → List α → Nat → Prop
  | a, [], b => a = b
  | a, x :: l, b => lo x = a ∧ a < hi x ∧ Tiles lo hi (hi x) l b

@[simp] theorem tiles_nil : Tiles lo hi a [] b ↔ a = b := .rfl

@[simp] theorem tiles_cons :
    Tiles lo hi a (x :: l) b ↔ lo x = a ∧ a < hi x ∧ Tiles lo hi (hi x) l b := .rfl

namespace Tiles

theorem le (h : Tiles lo hi a l b) : a ≤ b := by
  induction l generalizing a with
  | nil => exact Nat.le_of_eq h
  | cons x l ih => exact Nat.le_trans (Nat.le_of_lt h.2.1) (ih h.2.2)

theorem append (h : Tiles lo hi a l b) (h' : Tiles lo hi b l' c) : Tiles lo hi a (l ++ l') c := by
  induction l generalizing a with
  | nil => cases h; exact h'
  | cons x l ih => exact ⟨h.1, h.2.1, ih h.2.2⟩

theorem split (h : Tiles lo hi a (l ++ l') c) : ∃ b, Tiles lo hi a l b ∧ Tiles lo hi b l' c := by
  induction l generalizing a with
  | nil => exact ⟨a, rfl, h⟩
  | cons x l ih =>
    obtain ⟨b, hl, hl'⟩ := ih h.2.2
    exact ⟨b, ⟨h.1, h.2.1, hl⟩, hl'⟩

/-- A tiling grows at its right end. -/
theorem snoc (h : Tiles lo hi a l b) (hlo : lo x = b) (hlt : b < hi x) :
    Tiles lo hi a (l ++ [x]) (hi x) := h.append ⟨hlo, hlt, rfl⟩

theorem mem_bounds (h : Tiles lo hi a l b) (hx : x ∈ l) : a ≤ lo x ∧ lo x < hi x ∧ hi x ≤ b := by
  induction l generalizing a with
  | nil => cases hx
  | cons y l ih =>
    obtain ⟨rfl, hlt, ht⟩ := h
    rcases List.mem_cons.mp hx with rfl | hx
    · exact ⟨Nat.le_refl _, hlt, ht.le⟩
    · obtain ⟨h1, h2, h3⟩ := ih ht hx
      exact ⟨by omega, h2, h3⟩

/-- Every point of the tiled interval lies in a tile. -/
theorem exists_cover (h : Tiles lo hi a l b) (ha : a ≤ p) (hb : p < b) :
    ∃ x ∈ l, lo x ≤ p ∧ p < hi x := by
  induction l generalizing a with
  | nil => cases h; omega
  | cons y l ih =>
    obtain ⟨rfl, _, ht⟩ := h
    rcases Nat.lt_or_ge p (hi y) with hp | hp
    · exact ⟨y, List.mem_cons_self, ha, hp⟩
    · obtain ⟨x, hx, hcov⟩ := ih ht hp
      exact ⟨x, List.mem_cons_of_mem _ hx, hcov⟩

/-- Tiles that share a point are the same tile. -/
theorem cover_unique (h : Tiles lo hi a l b) (hx : x ∈ l) (hy : y ∈ l)
    (hpx : lo x ≤ p ∧ p < hi x) (hpy : lo y ≤ p ∧ p < hi y) : x = y := by
  induction l generalizing a with
  | nil => cases hx
  | cons z l ih =>
    obtain ⟨rfl, _, ht⟩ := h
    rcases List.mem_cons.mp hx with rfl | hx'
    · rcases List.mem_cons.mp hy with rfl | hy'
      · rfl
      · have := (ht.mem_bounds hy').1
        omega
    · rcases List.mem_cons.mp hy with rfl | hy'
      · have := (ht.mem_bounds hx').1
        omega
      · exact ih ht hx' hy'

/-- The tiles that end at or before `p` come first. -/
theorem mem_takeWhile (h : Tiles lo hi a l b) :
    x ∈ l.takeWhile (hi · ≤ p) ↔ x ∈ l ∧ hi x ≤ p := by
  induction l generalizing a with
  | nil => simp
  | cons y l ih =>
    obtain ⟨rfl, _, ht⟩ := h
    by_cases hy : hi y ≤ p
    · simp only [List.takeWhile_cons, hy, decide_true, ↓reduceIte, List.mem_cons, ih ht]
      constructor
      · rintro (rfl | ⟨h1, h2⟩)
        · exact ⟨.inl rfl, hy⟩
        · exact ⟨.inr h1, h2⟩
      · rintro ⟨rfl | h1, h2⟩
        · exact .inl rfl
        · exact .inr ⟨h1, h2⟩
    · simp only [List.takeWhile_cons, hy, decide_false, Bool.false_eq_true, ↓reduceIte,
        List.not_mem_nil, List.mem_cons, false_iff, not_and, Nat.not_le]
      rintro (rfl | h1)
      · omega
      · have := ht.mem_bounds h1; omega

/-- A tile is finished exactly when the point reaches its end: moving the point from inside a
tile to its end finishes this tile and no other. -/
theorem takeWhile_step (h : Tiles lo hi a l b) (hx : x ∈ l) (hlo : lo x ≤ p) (hhi : p < hi x) :
    l.takeWhile (hi · ≤ hi x) = l.takeWhile (hi · ≤ p) ++ [x] := by
  induction l generalizing a with
  | nil => cases hx
  | cons y l ih =>
    obtain ⟨rfl, hlt, ht⟩ := h
    rcases List.mem_cons.mp hx with rfl | hx
    · have hnil : l.takeWhile (hi · ≤ hi x) = [] := by
        cases l with
        | nil => rfl
        | cons z l => have := ht.2.1; simp [this]
      simp [hnil, Nat.not_le.mpr hhi]
    · have hb := ht.mem_bounds hx
      have hy : hi y ≤ p := by omega
      simp [hy, show hi y ≤ hi x by omega, ih ht hx]

/-- Moving the point inside a tile finishes nothing. -/
theorem takeWhile_stay (h : Tiles lo hi a l b) (hx : x ∈ l) (hlo : lo x ≤ p) (hpq : p ≤ q)
    (hhi : q < hi x) : l.takeWhile (hi · ≤ q) = l.takeWhile (hi · ≤ p) := by
  induction l generalizing a with
  | nil => cases hx
  | cons y l ih =>
    obtain ⟨rfl, hlt, ht⟩ := h
    rcases List.mem_cons.mp hx with rfl | hx
    · simp [Nat.not_le.mpr hhi, show ¬hi x ≤ p by omega]
    · have hb := ht.mem_bounds hx
      simp [show hi y ≤ p by omega, show hi y ≤ q by omega, ih ht hx]

/-- The right end of a tiling is determined by its left end. -/
theorem right_unique (h : Tiles lo hi a l b) (h' : Tiles lo hi a l c) : b = c := by
  induction l generalizing a with
  | nil => exact Eq.trans (Eq.symm h) h'
  | cons x l ih => exact ih h.2.2 h'.2.2

/-- The continuation of a tiling starts where the tiling ends. -/
theorem drop_prefix (h : Tiles lo hi a l b) (h' : Tiles lo hi a (l ++ l') c) :
    Tiles lo hi b l' c := by
  obtain ⟨d, hl, hr⟩ := h'.split
  rwa [h.right_unique hl]

/-- Finished tiles stay the same when the tiling grows. -/
theorem takeWhile_append (h : Tiles lo hi a l b) (h' : Tiles lo hi a (l ++ l') c) (hp : p ≤ b) :
    (l ++ l').takeWhile (hi · ≤ p) = l.takeWhile (hi · ≤ p) := by
  induction l generalizing a with
  | nil =>
    cases l' with
    | nil => rfl
    | cons y l' =>
      cases h
      have := h'.2.1
      simp [show ¬hi y ≤ p by omega]
  | cons y l ih =>
    by_cases hy : hi y ≤ p
    · simp [hy, ih h.2.2 h'.2.2]
    · simp [hy]

end Tiles

end Roce
