import Mathlib.Algebra.Order.Ring.Nat
import Mathlib.Data.Finset.Card
import Mathlib.Tactic.Common

/-! # Round robin

The members `0, ..., n - 1` of a cycle take turns. The turn goes to the first member after the last
one that had it, among those that are ready. A member that stays ready waits for every other one
once at most. -/

namespace Roce.RoundRobin

variable {n : Nat} {last i j k : Fin n} {p : Fin n → Bool}

/-- The members in the order of their turns, `last` being the last one that had it. -/
def turns [NeZero n] (last : Fin n) : List (Fin n) :=
  (List.range' 1 n).map fun i => Fin.ofNat n (i + last)

/-- The position of a member in this order. -/
def wait (last i : Fin n) : Nat := (i + (n - 1 - last)) % n

theorem wait_lt (last i : Fin n) : wait last i < n := Nat.mod_lt _ (Nat.zero_lt_of_lt i.isLt)

/-- Two cases without a remainder. -/
theorem wait_cases (last i : Fin n) :
    last.val < i.val ∧ wait last i = i - last - 1 ∨ i.val ≤ last.val ∧
      wait last i = i + n - last - 1 := by
  have hi := i.isLt
  have hl := last.isLt
  unfold wait
  rcases Nat.lt_or_ge last.val i.val with h | h
  · refine .inl ⟨h, ?_⟩
    rw [show i.val + (n - 1 - last) = (i - last - 1) + n by omega, Nat.add_mod_right,
      Nat.mod_eq_of_lt (by omega)]
  · refine .inr ⟨h, ?_⟩
    rw [Nat.mod_eq_of_lt (by omega)]
    omega

theorem wait_inj (h : wait last i = wait last j) : i = j := by
  have hi := i.isLt
  have hj := j.isLt
  have hl := last.isLt
  refine Fin.ext ?_
  rcases wait_cases last i with ⟨_, hwi⟩ | ⟨_, hwi⟩ <;>
    rcases wait_cases last j with ⟨_, hwj⟩ | ⟨_, hwj⟩ <;> omega

section
variable [NeZero n]

/-- The member at a position. -/
theorem wait_ofNat {m : Nat} (hm : m < n) : wait last (Fin.ofNat n (1 + m + last)) = m := by
  have hl := last.isLt
  have hval : (Fin.ofNat n (1 + m + last)).val = (1 + m + last) % n := rfl
  rcases Nat.lt_or_ge (1 + m + last) n with h | h
  · rw [Nat.mod_eq_of_lt h] at hval
    rcases wait_cases last (Fin.ofNat n (1 + m + last)) with ⟨_, hw⟩ | ⟨_, hw⟩ <;> omega
  · rw [Nat.mod_eq_sub_mod h, Nat.mod_eq_of_lt (by omega)] at hval
    rcases wait_cases last (Fin.ofNat n (1 + m + last)) with ⟨_, hw⟩ | ⟨_, hw⟩ <;> omega

theorem getElem?_turns {m : Nat} (hm : m < n) :
    (turns last)[m]? = some (Fin.ofNat n (1 + m + last)) := by
  rw [turns, List.getElem?_map, List.getElem?_range' hm, Option.map_some, Nat.one_mul]

theorem mem_turns (last i : Fin n) : i ∈ turns last := by
  have hwait := wait_lt last i
  have hi : Fin.ofNat n (1 + wait last i + last) = i := wait_inj (wait_ofNat hwait)
  exact List.mem_of_getElem? (hi ▸ getElem?_turns hwait)

theorem find_isSome : ((turns last).find? p).isSome ↔ ∃ i, p i = true := by
  rw [List.find?_isSome]
  exact ⟨fun ⟨i, _, hi⟩ => ⟨i, hi⟩, fun ⟨i, hi⟩ => ⟨i, mem_turns last i, hi⟩⟩

/-- The first member that is ready has the turn. -/
theorem wait_le_of_find (h : (turns last).find? p = some j) (hi : p i = true) :
    wait last j ≤ wait last i := by
  obtain ⟨-, m, hm, hj, hbefore⟩ := List.find?_eq_some_iff_getElem.mp h
  have hget : ∀ m', m' ≤ m → (turns last)[m']? = some (Fin.ofNat n (1 + m' + last)) ∧
      wait last (Fin.ofNat n (1 + m' + last)) = m' := by
    intro m' hle
    rw [turns, List.length_map, List.length_range'] at hm
    exact ⟨getElem?_turns (hle.trans_lt hm), wait_ofNat (hle.trans_lt hm)⟩
  have hwait : wait last j = m := by
    obtain ⟨hat, hw⟩ := hget m (Nat.le_refl m)
    rw [List.getElem?_eq_getElem hm, hj] at hat
    rw [Option.some.inj hat, hw]
  by_contra hlt
  have hlt : wait last i < m := by omega
  obtain ⟨hat, hw⟩ := hget _ hlt.le
  have hnot := hbefore _ hlt
  rw [List.getElem?_eq_getElem (hlt.trans hm), wait_inj hw] at hat
  rw [Option.some.inj hat, hi] at hnot
  exact absurd hnot (by decide)

end

/-- After the turn of a member, those that it was before are as much closer. -/
theorem wait_of_wait_lt (h : wait last j < wait last i) :
    wait j i = wait last i - wait last j - 1 := by
  have hi := i.isLt
  have hj := j.isLt
  have hl := last.isLt
  rcases wait_cases last i with ⟨_, hwi⟩ | ⟨_, hwi⟩ <;>
    rcases wait_cases last j with ⟨_, hwj⟩ | ⟨_, hwj⟩ <;>
    rcases wait_cases j i with ⟨_, hw⟩ | ⟨_, hw⟩ <;> omega

/-- The members among `s` that have their turn before `i`. -/
def ahead (s : Finset (Fin n)) (last i : Fin n) : Finset (Fin n) :=
  s.filter fun k => wait last k < wait last i

theorem ahead_subset (s : Finset (Fin n)) (last i : Fin n) : ahead s last i ⊆ s.erase i := by
  intro k hk
  obtain ⟨hk, hlt⟩ := Finset.mem_filter.mp hk
  refine Finset.mem_erase.mpr ⟨?_, hk⟩
  rintro rfl
  exact Nat.lt_irrefl _ hlt

/-- A member that had its turn is not ahead any more, and nobody else gets ahead. -/
theorem ahead_ssubset {s : Finset (Fin n)} (hs : j ∈ s) (h : wait last j < wait last i) :
    ahead s j i ⊂ ahead s last i := by
  have hwait := wait_of_wait_lt h
  have hlast := wait_lt last i
  refine Finset.ssubset_iff_of_subset ?_ |>.mpr ⟨j, Finset.mem_filter.mpr ⟨hs, h⟩, ?_⟩
  · intro k hk
    obtain ⟨hk, hlt⟩ := Finset.mem_filter.mp hk
    refine Finset.mem_filter.mpr ⟨hk, ?_⟩
    rcases Nat.lt_trichotomy (wait last j) (wait last k) with hjk | hjk | hjk
    · have := wait_of_wait_lt hjk
      omega
    · rw [← hjk]
      exact h
    · exact hjk.trans h
  · intro hmem
    have hself := (Finset.mem_filter.mp hmem).2
    have := wait_lt j i
    rcases wait_cases j j with ⟨hlt, _⟩ | ⟨_, hw⟩
    · exact absurd hlt (Nat.lt_irrefl _)
    · omega

/-! ## The first after the last -/

/-- `i` is the first of the numbers below `n` after `last`, in cyclic order, that `p` holds of. -/
def FirstAfter (p : Nat → Prop) (n last i : Nat) : Prop :=
  ∃ m < n, i = (last + m + 1) % n ∧ p i ∧ ∀ k < m, ¬p ((last + k + 1) % n)

/-- Each number below `n` has its turn. -/
theorem exists_turn {i : Nat} (last : Nat) (hi : i < n) : ∃ m < n, i = (last + m + 1) % n := by
  have hn : NeZero n := ⟨Nat.ne_of_gt (Nat.zero_lt_of_lt hi)⟩
  have hlast : last % n < n := Nat.mod_lt _ (Nat.zero_lt_of_lt hi)
  obtain ⟨k, hk, hget⟩ := List.mem_map.mp (mem_turns ⟨last % n, hlast⟩ ⟨i, hi⟩)
  obtain ⟨hpos, hlt⟩ := List.mem_range'_1.mp hk
  have hval : (k + last % n) % n = i := congrArg Fin.val hget
  refine ⟨k - 1, by omega, ?_⟩
  rw [← hval, Nat.add_mod_mod]
  congr 1
  omega

/-- A search in the order of the turns finds the first one. -/
theorem firstAfter_of_find {p : Nat → Bool} {last j : Nat}
    (h : ((List.range' 1 n).map fun i => (i + last) % n).find? p = some j) :
    FirstAfter (p · = true) n last j := by
  obtain ⟨hj, m, hm, hget, hbefore⟩ := List.find?_eq_some_iff_getElem.mp h
  have hturn : ∀ k, 1 + 1 * k + last = last + k + 1 := by omega
  simp only [List.getElem_map, List.getElem_range', hturn] at hget hbefore
  rw [List.length_map, List.length_range'] at hm
  exact ⟨m, hm, hget.symm, hj, fun k hk hp => by simpa [hp] using hbefore k hk⟩

theorem eq_false_of_find {p : Nat → Bool} {last i : Nat}
    (h : ((List.range' 1 n).map fun i => (i + last) % n).find? p = none) (hi : i < n) :
    p i = false := by
  obtain ⟨m, hm, rfl⟩ := exists_turn last hi
  have hnone := List.find?_eq_none.mp h ((last + m + 1) % n)
    (List.mem_map.mpr ⟨m + 1, List.mem_range'_1.mpr (by omega),
      by rw [Nat.add_comm, Nat.add_assoc]⟩)
  exact Bool.eq_false_iff.mpr hnone

end Roce.RoundRobin
