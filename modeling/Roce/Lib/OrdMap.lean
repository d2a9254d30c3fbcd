import Mathlib.Algebra.Order.Ring.Nat
import Mathlib.Order.Lattice
import Mathlib.Data.List.Sort

/-! # Ordered maps

A finite map with ordered keys, as a list of entries that is strictly sorted by key: the
`std::map` of the source. Iteration in key order is iteration of `entries`; the element before
an upper bound is `floor?`. -/

namespace Roce

/-- An ordered map: its entries, strictly sorted by key. -/
structure OrdMap (κ : Type u) (α : Type v) [LT κ] where
  entries : List (κ × α)
  sorted : entries.Pairwise (·.1 < ·.1)

namespace OrdMap

variable {κ : Type u} {α : Type v} [LinearOrder κ]

theorem ext {m m' : OrdMap κ α} (h : m.entries = m'.entries) : m = m' := by
  cases m; cases m'; cases h; rfl

instance [DecidableEq α] : DecidableEq (OrdMap κ α) := fun m m' =>
  decidable_of_iff (m.entries = m'.entries) ⟨ext, fun h => h ▸ rfl⟩

/-- The empty map. -/
def empty : OrdMap κ α := ⟨[], .nil⟩

def isEmpty (m : OrdMap κ α) : Bool := m.entries.isEmpty

def size (m : OrdMap κ α) : Nat := m.entries.length

def keys (m : OrdMap κ α) : List κ := m.entries.map (·.1)

def values (m : OrdMap κ α) : List α := m.entries.map (·.2)

/-- `*m.begin()`. -/
def begin? (m : OrdMap κ α) : Option (κ × α) := m.entries.head?

/-- `m.count(k) > 0`. -/
def contains (m : OrdMap κ α) (k : κ) : Bool := m.entries.any (·.1 = k)

/-- `m.find(k)`. -/
def find? (m : OrdMap κ α) (k : κ) : Option α := (m.entries.find? (·.1 = k)).map (·.2)

/-- `m.erase(k)`. -/
def erase (m : OrdMap κ α) (k : κ) : OrdMap κ α where
  entries := m.entries.filter (·.1 ≠ k)
  sorted := m.sorted.filter _

/-- `*--m.upper_bound(k)`; nothing when `m.upper_bound(k) == m.begin()`. -/
def floor? (m : OrdMap κ α) (k : κ) : Option (κ × α) :=
  (m.entries.takeWhile (·.1 ≤ k)).getLast?

/-- `*--m.lower_bound(k)`; nothing when `m.lower_bound(k) == m.begin()`. -/
def below? (m : OrdMap κ α) (k : κ) : Option (κ × α) :=
  (m.entries.takeWhile (·.1 < k)).getLast?

/-- The entries after `m[k] = v`. -/
def insertEntries (k : κ) (v : α) : List (κ × α) → List (κ × α)
  | [] => [(k, v)]
  | e :: l =>
    if k < e.1 then (k, v) :: e :: l
    else if e.1 < k then e :: insertEntries k v l
    else (k, v) :: l

theorem mem_insertEntries {e : κ × α} :
    e ∈ insertEntries k v l → e = (k, v) ∨ e ∈ l := by
  induction l with
  | nil => simp [insertEntries]
  | cons a l ih =>
    simp only [insertEntries]
    split
    · simp
    · split
      · simp only [List.mem_cons]
        rintro (rfl | h)
        · exact .inr (.inl rfl)
        · exact (ih h).imp id .inr
      · simp only [List.mem_cons]
        rintro (rfl | h)
        · exact .inl rfl
        · exact .inr (.inr h)

theorem insertEntries_sorted {l : List (κ × α)} (h : l.Pairwise (·.1 < ·.1)) :
    (insertEntries k v l).Pairwise (·.1 < ·.1) := by
  induction l with
  | nil => exact .cons (fun _ h => nomatch h) .nil
  | cons e l ih =>
    obtain ⟨he, hl⟩ := List.pairwise_cons.mp h
    simp only [insertEntries]
    split
    next hk =>
      refine .cons (fun x hx => ?_) h
      rcases List.mem_cons.mp hx with rfl | hx
      · exact hk
      · exact lt_trans hk (he x hx)
    next hk =>
      split
      next hk' =>
        refine .cons (fun x hx => ?_) (ih hl)
        rcases mem_insertEntries hx with rfl | hx
        · exact hk'
        · exact he x hx
      next hk' =>
        have heq : k = e.1 := le_antisymm (not_lt.mp hk') (not_lt.mp hk)
        exact .cons (fun x hx => heq ▸ he x hx) hl

/-- `m[k] = v`. -/
def insert (m : OrdMap κ α) (k : κ) (v : α) : OrdMap κ α where
  entries := insertEntries k v m.entries
  sorted := insertEntries_sorted m.sorted

/-- A key above all others goes to the end. -/
theorem entries_insert_last {m : OrdMap κ α} (h : ∀ e ∈ m.entries, e.1 < k) :
    (m.insert k v).entries = m.entries ++ [(k, v)] := by
  change insertEntries k v m.entries = _
  generalize m.entries = l at h
  induction l with
  | nil => rfl
  | cons e l ih =>
    have he := h e List.mem_cons_self
    simp only [insertEntries, not_lt_of_gt he, ↓reduceIte, he, List.cons_append]
    rw [ih fun x hx => h x (List.mem_cons_of_mem _ hx)]

/-- Erasing the first key drops the first entry. -/
theorem entries_erase_head {m : OrdMap κ α} (h : m.entries = (k, v) :: l) :
    (m.erase k).entries = l := by
  have hs := m.sorted
  rw [h, List.pairwise_cons] at hs
  simp only [erase, h, ne_eq, decide_not, List.filter_cons, decide_true, Bool.not_true,
    Bool.false_eq_true, ↓reduceIte]
  exact List.filter_eq_self.mpr fun e he => by simpa using ne_of_gt (hs.1 e he)

/-- A front of a sorted list: `p` holds up to some key. -/
theorem takeWhile_eq_filter {l : List (κ × α)} {p : κ × α → Bool} (hs : l.Pairwise (·.1 < ·.1))
    (hp : ∀ x y, p y = true → x.1 < y.1 → p x = true) : l.takeWhile p = l.filter p := by
  induction l with
  | nil => rfl
  | cons e l ih =>
    obtain ⟨he, hl⟩ := List.pairwise_cons.mp hs
    cases hpe : p e with
    | true => rw [List.takeWhile_cons_of_pos hpe, List.filter_cons_of_pos hpe, ih hl]
    | false =>
      have hnot : ¬p e = true := Bool.eq_false_iff.mp hpe
      rw [List.takeWhile_cons_of_neg hnot, List.filter_cons_of_neg hnot, List.filter_eq_nil_iff.mpr]
      exact fun y hy hpy => hnot (hp e y hpy (he y hy))

/-- The last entry has the largest key. -/
theorem getLast?_sorted {l : List (κ × α)} (hs : l.Pairwise (·.1 < ·.1)) :
    l.getLast? = some e ↔ e ∈ l ∧ ∀ x ∈ l, x.1 ≤ e.1 := by
  constructor
  · intro h
    obtain ⟨l', rfl⟩ := List.getLast?_eq_some_iff.mp h
    refine ⟨List.mem_append_right _ (List.mem_singleton_self e), fun x hx => ?_⟩
    rcases List.mem_append.mp hx with hx | hx
    · exact ((List.pairwise_append.mp hs).2.2 x hx e (List.mem_singleton_self e)).le
    · rw [List.mem_singleton.mp hx]
  · rintro ⟨he, hmax⟩
    obtain ⟨l₁, l₂, rfl⟩ := List.append_of_mem he
    cases l₂ with
    | nil => exact List.getLast?_concat
    | cons x l₂ =>
      have hx : e.1 < x.1 :=
        (List.pairwise_cons.mp (List.pairwise_append.mp hs).2.1).1 x List.mem_cons_self
      exact absurd (hmax x (by simp)) (not_le.mpr hx)

/-- The last entry of a front. -/
theorem getLast?_takeWhile {l : List (κ × α)} {p : κ × α → Bool} (hs : l.Pairwise (·.1 < ·.1))
    (hp : ∀ x y, p y = true → x.1 < y.1 → p x = true) : (l.takeWhile p).getLast? = some e ↔
      e ∈ l ∧ p e = true ∧ ∀ x ∈ l, p x = true → x.1 ≤ e.1 := by
  rw [takeWhile_eq_filter hs hp, getLast?_sorted (hs.filter _)]
  simp only [List.mem_filter, and_imp, and_assoc]

/-- `floor?` finds an entry that no other entry up to the bound exceeds. -/
theorem floor?_eq_some {m : OrdMap κ α} (he : (k, v) ∈ m.entries) (hk : k ≤ x)
    (hmax : ∀ e ∈ m.entries, e.1 ≤ x → e.1 ≤ k) : m.floor? x = some (k, v) := by
  refine (getLast?_takeWhile m.sorted fun a b hb hab => ?_).mpr ⟨he, by simpa using hk, ?_⟩
  · simpa using hab.le.trans (by simpa using hb)
  · simpa using hmax

/-- `below?` finds the entry with the largest key below the bound. -/
theorem below?_eq_some_iff {m : OrdMap κ α} : m.below? x = some e ↔
    e ∈ m.entries ∧ e.1 < x ∧ ∀ e' ∈ m.entries, e'.1 < x → e'.1 ≤ e.1 := by
  refine (getLast?_takeWhile m.sorted fun a b hb hab => ?_).trans (by simp)
  simpa using hab.trans (by simpa using hb)

theorem below?_eq_none_iff {m : OrdMap κ α} : m.below? x = none ↔ ∀ e ∈ m.entries, ¬e.1 < x := by
  rw [below?, takeWhile_eq_filter m.sorted fun a b hb hab => ?_]
  · simp
  · simpa using hab.trans (by simpa using hb)

theorem begin?_eq_none {m : OrdMap κ α} : m.begin? = none ↔ m.entries = [] :=
  List.head?_eq_none_iff

theorem begin?_eq_some {m : OrdMap κ α} : m.begin? = some e ↔ ∃ l, m.entries = e :: l :=
  List.head?_eq_some_iff

/-! ## Keys -/

theorem mem_keys_insertEntries {l : List (κ × α)} :
    x ∈ (insertEntries k v l).map (·.1) ↔ x = k ∨ x ∈ l.map (·.1) := by
  induction l with
  | nil => simp [insertEntries]
  | cons e l ih =>
    simp only [insertEntries]
    split
    next => simp
    next hk =>
      split
      next hk' =>
        rw [List.map_cons, List.mem_cons, ih, List.map_cons, List.mem_cons]
        exact or_left_comm
      next hk' =>
        have heq : k = e.1 := le_antisymm (not_lt.mp hk') (not_lt.mp hk)
        simp [heq]

@[simp] theorem mem_keys_insert {m : OrdMap κ α} :
    x ∈ (m.insert k v).keys ↔ x = k ∨ x ∈ m.keys := mem_keys_insertEntries

@[simp] theorem mem_keys_erase {m : OrdMap κ α} :
    x ∈ (m.erase k).keys ↔ x ≠ k ∧ x ∈ m.keys := by
  simp only [keys, erase, List.mem_map, List.mem_filter, decide_eq_true_eq]
  constructor
  · rintro ⟨e, ⟨he, hne⟩, rfl⟩
    exact ⟨hne, e, he, rfl⟩
  · rintro ⟨hne, e, he, rfl⟩
    exact ⟨e, ⟨he, hne⟩, rfl⟩

@[simp] theorem keys_empty : (empty : OrdMap κ α).keys = [] := rfl

theorem contains_iff {m : OrdMap κ α} : m.contains k = true ↔ k ∈ m.keys := by
  simp [contains, keys]

theorem isEmpty_iff {m : OrdMap κ α} : m.isEmpty = true ↔ m.keys = [] := by
  simp [isEmpty, keys]

theorem isEmpty_erase {m : OrdMap κ α} (h : m.isEmpty = true) (k : κ) :
    (m.erase k).isEmpty = true := by
  rw [isEmpty, List.isEmpty_iff] at h ⊢
  exact (congrArg (List.filter _) h).trans List.filter_nil

theorem size_eq_zero_iff {m : OrdMap κ α} : m.size = 0 ↔ m.keys = [] := by
  simp [size, keys]

/-- The map with `f` applied to every value. -/
def mapValues (f : α → β) (m : OrdMap κ α) : OrdMap κ β where
  entries := m.entries.map fun e => (e.1, f e.2)
  sorted := by
    rw [List.pairwise_map]
    exact m.sorted

@[simp] theorem keys_mapValues (f : α → β) (m : OrdMap κ α) : (m.mapValues f).keys = m.keys := by
  simp [keys, mapValues]

/-! ## Lookups -/

theorem nodup_keys (m : OrdMap κ α) : m.keys.Nodup := by
  rw [keys, List.Nodup, List.pairwise_map]
  exact m.sorted.imp ne_of_lt

/-- A set is determined by its elements. -/
theorem ext_keys {m m' : OrdMap κ Unit} (h : ∀ k, k ∈ m.keys ↔ k ∈ m'.keys) : m = m' := by
  have hmem : ∀ (m : OrdMap κ Unit) e, e ∈ m.entries ↔ e.1 ∈ m.keys := by
    refine fun m e => ⟨fun he => List.mem_map_of_mem he, fun he => ?_⟩
    obtain ⟨_, he', heq⟩ := List.mem_map.mp he
    exact Prod.ext heq rfl ▸ he'
  refine ext (m.sorted.eq_of_mem_iff m'.sorted fun e => ?_)
  rw [hmem, hmem, h]

theorem find?_eq_some {m : OrdMap κ α} : m.find? k = some v ↔ (k, v) ∈ m.entries := by
  simp only [find?, Option.map_eq_some_iff]
  constructor
  · rintro ⟨⟨k', v'⟩, hfind, rfl⟩
    obtain rfl : k' = k := by simpa using List.find?_some hfind
    exact List.mem_of_find?_eq_some hfind
  · intro h
    refine ⟨(k, v), ?_, rfl⟩
    obtain ⟨l, l', hl⟩ := List.append_of_mem h
    have hs := m.sorted
    rw [hl, List.pairwise_append] at hs
    have hnone : l.find? (·.1 = k) = none := List.find?_eq_none.mpr fun e he => by
      simpa using ne_of_lt (hs.2.2 e he _ List.mem_cons_self)
    rw [hl, List.find?_append, hnone]
    simp

theorem mem_keys {m : OrdMap κ α} : k ∈ m.keys ↔ ∃ v, m.find? k = some v := by
  simp [find?_eq_some, keys]

theorem find?_eq_none {m : OrdMap κ α} : m.find? k = none ↔ k ∉ m.keys := by
  rw [mem_keys, ← Option.isSome_iff_exists, Option.not_isSome_iff_eq_none]

theorem find?_insertEntries (l : List (κ × α)) : (insertEntries k v l).find? (·.1 = x) =
    if k = x then some (k, v) else l.find? (·.1 = x) := by
  induction l with
  | nil => by_cases hx : k = x <;> simp [insertEntries, hx]
  | cons e l ih =>
    unfold insertEntries
    split
    next => by_cases hx : k = x <;> simp [hx]
    next hk =>
      split
      next hk' =>
        rw [List.find?_cons, List.find?_cons, ih]
        by_cases hx : e.1 = x
        · have hne : k ≠ x := fun h => absurd hk' (by rw [hx, h]; exact lt_irrefl x)
          simp [hx, hne]
        · simp [hx]
      next hk' =>
        have heq : e.1 = k := le_antisymm (not_lt.mp hk) (not_lt.mp hk')
        by_cases hx : k = x <;> simp [hx, heq]

theorem find?_insert {m : OrdMap κ α} :
    (m.insert k v).find? x = if k = x then some v else m.find? x := by
  rw [find?, insert, find?_insertEntries]
  split <;> rfl

/-- The entries after an insertion. -/
theorem mem_insert {m : OrdMap κ α} {e : κ × α} :
    e ∈ (m.insert k v).entries ↔ e = (k, v) ∨ e.1 ≠ k ∧ e ∈ m.entries := by
  obtain ⟨x, y⟩ := e
  rw [← find?_eq_some, find?_insert, ← find?_eq_some]
  by_cases hx : k = x
  · simp [hx, eq_comm]
  · simp [hx, Ne.symm hx]

/-- A new entry is found below a bound if its key is, and if no other one comes later. -/
theorem below?_insert {m : OrdMap κ α} : (m.insert k v).below? x =
    if k < x ∧ (m.below? x).all (·.1 ≤ k) then some (k, v) else m.below? x := by
  split
  next h =>
    refine below?_eq_some_iff.mpr ⟨mem_insert.mpr (.inl rfl), h.1, fun e he hlt => ?_⟩
    rcases mem_insert.mp he with rfl | ⟨-, he⟩
    · exact le_refl _
    · cases hbelow : m.below? x with
      | none => exact absurd hlt (below?_eq_none_iff.mp hbelow e he)
      | some f =>
        have hf : f.1 ≤ k := by simpa [hbelow] using h.2
        exact ((below?_eq_some_iff.mp hbelow).2.2 e he hlt).trans hf
  next h =>
    cases hbelow : m.below? x with
    | none =>
      refine below?_eq_none_iff.mpr fun e he hlt => ?_
      rcases mem_insert.mp he with rfl | ⟨-, he⟩
      · exact h ⟨hlt, by simp [hbelow]⟩
      · exact below?_eq_none_iff.mp hbelow e he hlt
    | some f =>
      obtain ⟨hf, hfx, hmax⟩ := below?_eq_some_iff.mp hbelow
      have hk : k < x → k < f.1 := fun hk => by simpa [hbelow, hk] using h
      have hne : f.1 ≠ k := fun heq => absurd (hk (heq ▸ hfx)) (heq ▸ lt_irrefl k)
      refine below?_eq_some_iff.mpr ⟨mem_insert.mpr (.inr ⟨hne, hf⟩), hfx, fun e he hlt => ?_⟩
      rcases mem_insert.mp he with rfl | ⟨-, he⟩
      · exact (hk hlt).le
      · exact hmax e he hlt

theorem find?_mapValues (f : α → β) (m : OrdMap κ α) :
    (m.mapValues f).find? k = (m.find? k).map f := by
  rw [find?, mapValues, List.find?_map, find?]
  simp [Function.comp_def]

@[simp] theorem find?_empty : (empty : OrdMap κ α).find? k = none := rfl

end OrdMap
end Roce
