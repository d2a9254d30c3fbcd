import Mathlib.Combinatorics.Enumerative.DoubleCounting
import Roce.Lib.Count
import Roce.Lib.Runs

/-! # The chains of missed packets

The plot of the chunks a lossy allgather misses: for each rank, the packets it and its next
neighbors all miss, and from these counts the number of chains of each length. -/

namespace Roce

/-! ## Data frames -/

/-- The `_merge` column of a left merge. -/
inductive Indicator
  | leftOnly | both
deriving DecidableEq

section Merge

variable {α : Type u} {κ : Type v} [DecidableEq κ]

/-- `left.merge(right, on=key, how="left", indicator=True)`, for a `right` of keys only: one row for
each match, and one for a row of `left` without a match. -/
def leftMerge (left : List α) (key : α → κ) (right : List κ) : List (α × Indicator) :=
  left.flatMap fun row =>
    match right.filter (· = key row) with
    | [] => [(row, .leftOnly)]
    | matched => matched.map fun _ => (row, .both)

/-- `x[x["_merge"] == indicator]`, without the column. -/
def selectMerge (x : List (α × Indicator)) (indicator : Indicator) : List α :=
  (x.filter (·.2 = indicator)).map (·.1)

end Merge

/-- The columns `dst_rank` and `packet`. -/
structure BitmapRow where
  dstRank : Nat
  packet : Nat
deriving DecidableEq

/-- What the plot reads of `ag_stats`. -/
structure AgStats where
  numRanks : Nat
  numPktsPerChunk : Nat
  numChunksPerRank : Nat

namespace AgStats

def numPktsPerMcast (st : AgStats) : Nat := st.numPktsPerChunk * st.numChunksPerRank

def numPkts (st : AgStats) : Nat := st.numPktsPerMcast * st.numRanks

/-- All the bitmaps if there is no miss. -/
def bitmapsPerfect (st : AgStats) : List BitmapRow :=
  (List.range st.numRanks).flatMap fun dstRank => (List.range st.numPkts).map (⟨dstRank, ·⟩)

def bitmapsMisses (st : AgStats) (bitmaps : List BitmapRow) : List BitmapRow :=
  let bitmaps := bitmaps.mergeSort fun a b =>
    a.dstRank < b.dstRank ∨ a.dstRank = b.dstRank ∧ a.packet ≤ b.packet
  selectMerge (leftMerge st.bitmapsPerfect id bitmaps.eraseDups) .leftOnly

end AgStats

/-! ## The plot -/

/-- One more neighbor of `firstRank`. -/
def chainStep (bitmapsMisses : List BitmapRow) (numRanks firstRank : Nat)
    (s : List BitmapRow × List Int) (i : Nat) : List BitmapRow × List Int :=
  let secondRank := (firstRank + i) % numRanks
  let secondRankMisses := (bitmapsMisses.filter (·.dstRank = secondRank)).map (·.packet)
  let firstRankMisses := selectMerge (leftMerge s.1 (·.packet) secondRankMisses.eraseDups) .both
  (firstRankMisses, s.2.modify i (· + firstRankMisses.length))

/-- The iteration for `firstRank`. -/
def countChains (bitmapsMisses : List BitmapRow) (numRanks : Nat) (missChains : List Int)
    (firstRank : Nat) : List Int :=
  ((List.range numRanks).foldl (chainStep bitmapsMisses numRanks firstRank)
    (bitmapsMisses.filter (·.dstRank = firstRank), missChains)).2

/-- The inner loop of the correction. -/
def correctBelow (missChains : List Int) (i : Nat) : List Int :=
  (List.range i).foldl
    (fun missChains j => missChains.modify j (· - missChains.getD i 0 * ((i : Int) - j + 1)))
    missChains

/-- "Since each chain is counted multiple time, correct the values", from the longest down to the
second. -/
def correctChains (missChains : List Int) : List Int :=
  (List.range' 1 (missChains.length - 1)).reverse.foldl correctBelow missChains

/-- The sum that is printed. -/
def chainSum (missChains : List Int) : Int :=
  (List.range missChains.length).foldl
    (fun s (i : Nat) => s + ((i : Int) + 1) * missChains.getD i 0) 0

/-- What `plot` prints last. -/
structure MissChains where
  missChains : List Int
  s : Int

def plot (st : AgStats) (bitmaps : List BitmapRow) : MissChains :=
  let bitmapsMisses := st.bitmapsMisses bitmaps
  let missChains := (List.range st.numRanks).foldl (countChains bitmapsMisses st.numRanks)
    (List.replicate st.numRanks 0)
  let missChains := correctChains missChains
  { missChains, s := chainSum missChains }

/-! ## The chains -/

namespace AgStats

/-- The rank, counted around the ring, does not have the packet. -/
abbrev Misses (st : AgStats) (bitmaps : List BitmapRow) (packet rank : Nat) : Prop :=
  ⟨rank % st.numRanks, packet⟩ ∉ bitmaps

/-- The pairs of a rank and a packet that it misses. -/
def numMisses (st : AgStats) (bitmaps : List BitmapRow) : Nat :=
  ∑ packet ∈ Finset.range st.numPkts, Nat.count (st.Misses bitmaps packet) st.numRanks

/-- The windows of `i + 1` ranks that all miss a same packet. -/
def numWindows (st : AgStats) (bitmaps : List BitmapRow) (i : Nat) : Nat :=
  ∑ packet ∈ Finset.range st.numPkts, Nat.count (Window (st.Misses bitmaps packet) i) st.numRanks

/-- The maximal runs of `i + 1` ranks that all miss a same packet, each at its first rank. -/
def numRuns (st : AgStats) (bitmaps : List BitmapRow) (i : Nat) : Nat :=
  ∑ packet ∈ Finset.range st.numPkts,
    Nat.count (MaximalRun (st.Misses bitmaps packet) st.numRanks i) st.numRanks

end AgStats

/-! ## Merges -/

section Merge

variable {α : Type u} {κ : Type v} [DecidableEq κ]

theorem filter_eq_of_nodup {l : List κ} (hl : l.Nodup) (k : κ) :
    l.filter (· = k) = if k ∈ l then [k] else [] := by
  induction l with
  | nil => rfl
  | cons a l ih =>
    obtain ⟨ha, hl⟩ := List.nodup_cons.mp hl
    rw [List.filter_cons, ih hl]
    by_cases h : a = k
    · subst h
      simp [ha]
    · simp [h, Ne.symm h]

theorem eraseDups_of_nodup {l : List κ} (hl : l.Nodup) : l.eraseDups = l := by
  induction l with
  | nil => rfl
  | cons a l ih =>
    obtain ⟨ha, hl⟩ := List.nodup_cons.mp hl
    have hfilter : l.filter (fun b => !b == a) = l := by
      apply List.filter_eq_self.mpr
      intro b hb
      have : b ≠ a := ne_of_mem_of_not_mem hb ha
      simpa using this
    rw [List.eraseDups_cons, hfilter, ih hl]

theorem selectMerge_append (x y : List (α × Indicator)) (indicator : Indicator) :
    selectMerge (x ++ y) indicator = selectMerge x indicator ++ selectMerge y indicator := by
  rw [selectMerge, List.filter_append, List.map_append, selectMerge, selectMerge]

/-- The rows without a match. -/
theorem selectMerge_leftOnly (left : List α) (key : α → κ) (right : List κ) :
    selectMerge (leftMerge left key right) .leftOnly = left.filter (key · ∉ right) := by
  induction left with
  | nil => rfl
  | cons row left ih =>
    rw [leftMerge, List.flatMap_cons, selectMerge_append, ← leftMerge, ih, List.filter_cons]
    have hmem : right.filter (· = key row) = [] ↔ key row ∉ right := by
      simp only [List.filter_eq_nil_iff, decide_eq_true_eq]
      exact ⟨fun h hin => h _ hin rfl, fun h _ hin heq => h (heq ▸ hin)⟩
    split
    next h => simp [selectMerge, hmem.mp h]
    next h =>
      have hin : key row ∈ right := by simpa using mt hmem.mpr h
      simp [selectMerge, hin]

/-- The rows with a match, among keys without duplicates. -/
theorem selectMerge_both (left : List α) (key : α → κ) {right : List κ} (h : right.Nodup) :
    selectMerge (leftMerge left key right) .both = left.filter (key · ∈ right) := by
  induction left with
  | nil => rfl
  | cons row left ih =>
    rw [leftMerge, List.flatMap_cons, selectMerge_append, ← leftMerge, ih, List.filter_cons,
      filter_eq_of_nodup h]
    by_cases hin : key row ∈ right <;> simp [selectMerge, hin]

end Merge

/-! ## The misses -/

section Misses

variable (st : AgStats) (bitmaps : List BitmapRow)

/-- The packets that a rank misses. -/
def AgStats.rankMisses (rank : Nat) : List Nat :=
  (List.range st.numPkts).filter (st.Misses bitmaps · rank)

theorem bitmapsMisses_eq : st.bitmapsMisses bitmaps = st.bitmapsPerfect.filter (· ∉ bitmaps) := by
  rw [AgStats.bitmapsMisses, selectMerge_leftOnly]
  simp [List.mem_mergeSort]

/-- `bitmaps_misses[bitmaps_misses["dst_rank"] == rank]` -/
theorem filter_dstRank (rank : Nat) (h : rank < st.numRanks) :
    (st.bitmapsMisses bitmaps).filter (·.dstRank = rank) =
      (st.rankMisses bitmaps rank).map (⟨rank, ·⟩) := by
  rw [bitmapsMisses_eq, AgStats.bitmapsPerfect, List.filter_flatMap, List.filter_flatMap,
    flatMap_eq_of_unique (x := rank) List.nodup_range]
  · simp [List.filter_map, Function.comp_def, AgStats.rankMisses, Nat.mod_eq_of_lt h]
  · exact fun hnot => absurd (List.mem_range.mpr h) hnot
  · intro dstRank _ hne
    simp [List.filter_map, Function.comp_def, hne]

theorem nodup_rankMisses (rank : Nat) : (st.rankMisses bitmaps rank).Nodup :=
  List.nodup_range.filter _

/-! ## Arrays -/

/-- An array as a function of the indices, of which one entry is changed. -/
theorem modify_map_range {f f' : Nat → Int} {g : Int → Int} {j : Nat} (n : Nat)
    (hj : f' j = g (f j)) (h : ∀ k, k ≠ j → f' k = f k) :
    ((List.range n).map f).modify j g = (List.range n).map f' := by
  refine List.ext_getElem (by simp) fun k hk _ => ?_
  rw [List.getElem_modify, List.getElem_map, List.getElem_map, List.getElem_range]
  split
  next heq => rw [← heq, hj]
  next hne => rw [h k (Ne.symm hne)]

/-! ## The windows are counted -/

/-- The rows that are left after `t` neighbors. -/
def AgStats.chainRows (firstRank t : Nat) : List BitmapRow :=
  ((List.range st.numPkts).filter fun packet => st.Misses bitmaps packet firstRank ∧
    ∀ d < t, st.Misses bitmaps packet (firstRank + d)).map (⟨firstRank, ·⟩)

/-- The packets that `firstRank` and its next `k` neighbors miss. -/
def AgStats.numChains (k firstRank : Nat) : Nat :=
  Nat.count (fun packet => Window (st.Misses bitmaps packet) k firstRank) st.numPkts

variable {st bitmaps}

theorem length_chainRows :
    (st.chainRows bitmaps firstRank (t + 1)).length = st.numChains bitmaps t firstRank := by
  rw [AgStats.chainRows, List.length_map, ← List.countP_eq_length_filter, AgStats.numChains,
    Nat.count]
  apply List.countP_congr
  intro packet _
  simp only [decide_eq_true_eq, Nat.lt_succ_iff]
  exact ⟨And.right, fun h => ⟨h 0 (Nat.zero_le _), h⟩⟩

theorem chainStep_eq (h : 0 < st.numRanks) (missChains : List Int) :
    chainStep (st.bitmapsMisses bitmaps) st.numRanks firstRank
        (st.chainRows bitmaps firstRank t, missChains) t =
      (st.chainRows bitmaps firstRank (t + 1),
        missChains.modify t (· + st.numChains bitmaps t firstRank)) := by
  have hrows : selectMerge (leftMerge (st.chainRows bitmaps firstRank t) (·.packet)
      (st.rankMisses bitmaps ((firstRank + t) % st.numRanks))) .both =
      st.chainRows bitmaps firstRank (t + 1) := by
    rw [selectMerge_both _ _ (nodup_rankMisses ..), AgStats.chainRows, List.filter_map,
      List.filter_filter, AgStats.chainRows]
    refine congrArg _ (List.filter_congr fun packet hpacket => ?_)
    simp only [AgStats.rankMisses, AgStats.Misses, Function.comp_def, List.mem_filter, hpacket,
      Nat.mod_mod, decide_eq_true_eq, true_and, Nat.forall_lt_succ_right, ← Bool.decide_and]
    exact decide_eq_decide.mpr (by rw [and_comm, and_assoc])
  rw [chainStep, filter_dstRank _ _ _ (Nat.mod_lt _ h), List.map_map, Function.comp_def,
    List.map_id', eraseDups_of_nodup (nodup_rankMisses ..), hrows, length_chainRows]

theorem foldl_chainStep (h : 0 < st.numRanks) (g : Nat → Int) (t : Nat) :
    (List.range t).foldl (chainStep (st.bitmapsMisses bitmaps) st.numRanks firstRank)
        (st.chainRows bitmaps firstRank 0, (List.range st.numRanks).map g) =
      (st.chainRows bitmaps firstRank t, (List.range st.numRanks).map fun k =>
        if k < t then g k + st.numChains bitmaps k firstRank else g k) := by
  induction t with
  | zero => simp
  | succ t ih =>
    rw [List.range_succ, List.foldl_concat, ih, chainStep_eq h]
    refine congrArg _ (modify_map_range _ (by simp) fun k hk => ?_)
    have hlt : k < t + 1 ↔ k < t := by omega
    simp only [hlt]

/-- An iteration counts its windows. -/
theorem countChains_eq (h : firstRank < st.numRanks) (g : Nat → Int) :
    countChains (st.bitmapsMisses bitmaps) st.numRanks ((List.range st.numRanks).map g) firstRank =
      (List.range st.numRanks).map fun k => g k + st.numChains bitmaps k firstRank := by
  have hrows : (st.rankMisses bitmaps firstRank).map (⟨firstRank, ·⟩) =
      st.chainRows bitmaps firstRank 0 := by
    simp [AgStats.rankMisses, AgStats.chainRows]
  rw [countChains, filter_dstRank _ _ _ h, hrows, foldl_chainStep (Nat.zero_lt_of_lt h)]
  exact List.map_congr_left fun k hk => if_pos (List.mem_range.mp hk)

theorem foldl_countChains (t : Nat) (ht : t ≤ st.numRanks) :
    (List.range t).foldl (countChains (st.bitmapsMisses bitmaps) st.numRanks)
        (List.replicate st.numRanks 0) =
      (List.range st.numRanks).map fun k =>
        ((∑ firstRank ∈ Finset.range t, st.numChains bitmaps k firstRank : Nat) : Int) := by
  induction t with
  | zero => simp
  | succ t ih =>
    rw [List.range_succ, List.foldl_concat, ih (Nat.le_of_succ_le ht), countChains_eq ht]
    simp only [Finset.sum_range_succ, Nat.cast_add]

/-- Rank by rank or packet by packet. -/
theorem sum_numChains (k : Nat) : ∑ firstRank ∈ Finset.range st.numRanks,
    st.numChains bitmaps k firstRank = st.numWindows bitmaps k := by
  simp only [AgStats.numChains, AgStats.numWindows, Nat.count_eq_card_filter_range]
  exact Finset.sum_card_bipartiteAbove_eq_sum_card_bipartiteBelow _

/-- What is printed before the correction. -/
theorem missChains_counted : (List.range st.numRanks).foldl
    (countChains (st.bitmapsMisses bitmaps) st.numRanks) (List.replicate st.numRanks 0) =
      (List.range st.numRanks).map fun k => (st.numWindows bitmaps k : Int) := by
  rw [foldl_countChains _ (le_refl _)]
  simp only [sum_numChains]

theorem periodic_misses (packet : Nat) :
    Function.Periodic (st.Misses bitmaps packet) st.numRanks := fun rank => by
  simp [AgStats.Misses]

end Misses

/-! ## The correction -/

section Correction

variable {w r : Nat → Int} {n : Nat}

/-- The array when the entries from `i` on have been handed down. -/
def corrected (w r : Nat → Int) (n i k : Nat) : Int :=
  w k - ∑ m ∈ Finset.Ico (max i (k + 1)) n, ((m : Int) - k + 1) * r m

theorem corrected_of_le (h : i ≤ k + 1) (hk : k < n)
    (hw : w k = ∑ m ∈ Finset.Ico k n, ((m : Int) - k + 1) * r m) : corrected w r n i k = r k := by
  rw [corrected, max_eq_right h, hw, Finset.sum_eq_sum_Ico_succ_bot hk]
  simp

theorem corrected_of_lt (hk : k < i) (hi : i < n) :
    corrected w r n i k = corrected w r n (i + 1) k - r i * ((i : Int) - k + 1) := by
  rw [corrected, corrected, max_eq_left hk, max_eq_left (Nat.le_succ_of_le hk),
    Finset.sum_eq_sum_Ico_succ_bot hi, mul_comm (r i)]
  ring

/-- The inner loop hands entry `i` down. -/
theorem correctBelow_eq (f : Nat → Int) (hi : i < n) :
    correctBelow ((List.range n).map f) i =
      (List.range n).map fun k => if k < i then f k - f i * ((i : Int) - k + 1) else f k := by
  have hloop : ∀ t ≤ i, (List.range t).foldl
      (fun missChains j => missChains.modify j (· - missChains.getD i 0 * ((i : Int) - j + 1)))
      ((List.range n).map f) =
      (List.range n).map fun k => if k < t then f k - f i * ((i : Int) - k + 1) else f k := by
    intro t ht
    induction t with
    | zero => simp
    | succ t ih =>
      rw [List.range_succ, List.foldl_concat, ih (Nat.le_of_succ_le ht)]
      refine modify_map_range _ ?_ fun k hk => ?_
      · have hnot : ¬i < t := by omega
        simp [hi, hnot]
      · have hlt : k < t + 1 ↔ k < t := by omega
        simp only [hlt]
  exact hloop i (le_refl _)

/-- The outer loop, from the last entry down to `i`. -/
theorem foldl_correctBelow
    (hw : ∀ k < n, w k = ∑ m ∈ Finset.Ico k n, ((m : Int) - k + 1) * r m) (hi : i ≤ n) :
    (List.range' i (n - i)).reverse.foldl correctBelow ((List.range n).map w) =
      (List.range n).map (corrected w r n i) := by
  induction hi using Nat.decreasingInduction with
  | self =>
    rw [Nat.sub_self]
    apply List.map_congr_left
    intro k hk
    rw [corrected, max_eq_left (List.mem_range.mp hk)]
    simp
  | of_succ i hi ih =>
    have hrange : List.range' i (n - i) = i :: List.range' (i + 1) (n - (i + 1)) := by
      rw [show n - i = n - (i + 1) + 1 by omega, List.range'_succ]
    rw [hrange, List.reverse_cons, List.foldl_concat, ih, correctBelow_eq _ hi,
      corrected_of_le (le_refl _) hi (hw i hi)]
    apply List.map_congr_left
    intro k hk
    have hk := List.mem_range.mp hk
    split
    next hlt => rw [corrected_of_lt hlt hi]
    next hge =>
      rw [corrected_of_le (by omega) hk (hw k hk), corrected_of_le (by omega) hk (hw k hk)]

/-- The correction inverts the sums. -/
theorem correctChains_eq
    (hw : ∀ k < n, w k = ∑ m ∈ Finset.Ico k n, ((m : Int) - k + 1) * r m) :
    correctChains ((List.range n).map w) = (List.range n).map r := by
  cases n with
  | zero => rfl
  | succ n =>
    rw [correctChains, List.length_map, List.length_range, foldl_correctBelow hw n.succ_pos]
    apply List.map_congr_left
    intro k hk
    have hk := List.mem_range.mp hk
    exact corrected_of_le (Nat.succ_pos k) hk (hw k hk)

theorem chainSum_eq (r : Nat → Int) (n : Nat) :
    chainSum ((List.range n).map r) = ∑ i ∈ Finset.range n, ((i : Int) + 1) * r i := by
  have hloop : ∀ t ≤ n, (List.range t).foldl
      (fun s (i : Nat) => s + ((i : Int) + 1) * ((List.range n).map r).getD i 0) 0 =
      ∑ i ∈ Finset.range t, ((i : Int) + 1) * r i := by
    intro t ht
    induction t with
    | zero => rfl
    | succ t ih =>
      have hget : ((List.range n).map r).getD t 0 = r t := by simp [Nat.lt_of_succ_le ht]
      rw [List.range_succ, List.foldl_concat, ih (Nat.le_of_succ_le ht), hget,
        Finset.sum_range_succ]
  rw [chainSum, List.length_map, List.length_range, hloop n (le_refl _)]

end Correction

/-! ## The chains after the correction -/

section Runs

variable {st : AgStats} {bitmaps : List BitmapRow}

/-- A run of `m + 1` ranks has `m - k + 1` windows of `k + 1` ranks. -/
theorem numWindows_eq (h : ∀ packet < st.numPkts, ∃ rank < st.numRanks, ⟨rank, packet⟩ ∈ bitmaps)
    (hk : k ≤ st.numRanks) : (st.numWindows bitmaps k : Int) =
      ∑ m ∈ Finset.Ico k st.numRanks, ((m : Int) - k + 1) * st.numRuns bitmaps m := by
  have hzero : ∀ packet < st.numPkts,
      Nat.count (Window (st.Misses bitmaps packet) st.numRanks) st.numRanks = 0 := by
    intro packet hpacket
    obtain ⟨rank, hrank, hmem⟩ := h packet hpacket
    have hheld : ¬st.Misses bitmaps packet rank := by simpa [Nat.mod_eq_of_lt hrank] using hmem
    exact count_window_eq_zero (periodic_misses packet) hrank hheld (Nat.le_succ _)
  refine eq_sum_triangular (w := fun k => (st.numWindows bitmaps k : Int))
    (e := fun k => ((∑ packet ∈ Finset.range st.numPkts,
      Nat.count (EndsRun (st.Misses bitmaps packet) k) st.numRanks : Nat) : Int))
    (fun k => ?_) (fun k => ?_) ?_ ?_ hk
  · rw [← Nat.cast_add, AgStats.numWindows, AgStats.numWindows, ← Finset.sum_add_distrib]
    exact congrArg _ (Finset.sum_congr rfl fun packet _ =>
      count_window (p := st.Misses bitmaps packet) ..)
  · rw [← Nat.cast_add, AgStats.numRuns, ← Finset.sum_add_distrib]
    refine congrArg _ (Finset.sum_congr rfl fun packet hpacket => ?_)
    obtain ⟨rank, hrank, -⟩ := h packet (Finset.mem_range.mp hpacket)
    exact count_endsRun (periodic_misses packet) (Nat.zero_lt_of_lt hrank) k
  · exact Nat.cast_eq_zero.mpr <|
      Finset.sum_eq_zero fun packet hpacket => hzero packet (Finset.mem_range.mp hpacket)
  · refine Nat.cast_eq_zero.mpr (Finset.sum_eq_zero fun packet hpacket => ?_)
    have := count_window (p := st.Misses bitmaps packet) st.numRanks st.numRanks
    rw [hzero packet (Finset.mem_range.mp hpacket)] at this
    omega

/-- The first entry has counted every miss. -/
theorem numWindows_zero : st.numWindows bitmaps 0 = st.numMisses bitmaps := by
  rw [AgStats.numWindows, AgStats.numMisses]
  exact Finset.sum_congr rfl fun packet _ => count_window_zero (p := st.Misses bitmaps packet) _

/-- **The correction of the chains is exact**: each entry is the number of the maximal runs of its
length, and together they make up the misses. -/
theorem missChains_exact (st : AgStats) (bitmaps : List BitmapRow)
    (h : ∀ packet < st.numPkts, ∃ rank < st.numRanks, ⟨rank, packet⟩ ∈ bitmaps) :
    (plot st bitmaps).missChains.length = st.numRanks ∧
      (∀ i < st.numRanks, (plot st bitmaps).missChains[i]? = some (st.numRuns bitmaps i : Int)) ∧
      ∑ i ∈ Finset.range st.numRanks, ((i : Int) + 1) * (plot st bitmaps).missChains.getD i 0 =
        st.numMisses bitmaps ∧
      (plot st bitmaps).s = st.numMisses bitmaps := by
  have hchains : (plot st bitmaps).missChains =
      (List.range st.numRanks).map fun i => (st.numRuns bitmaps i : Int) := by
    rw [plot, missChains_counted]
    exact correctChains_eq fun k hk => numWindows_eq h hk.le
  have hsum : ∑ i ∈ Finset.range st.numRanks, ((i : Int) + 1) * st.numRuns bitmaps i =
      st.numMisses bitmaps := by
    rw [← numWindows_zero, numWindows_eq h (Nat.zero_le _), ← Finset.range_eq_Ico]
    simp
  refine ⟨?_, fun i hi => ?_, ?_, ?_⟩
  · rw [hchains, List.length_map, List.length_range]
  · simp [hchains, hi]
  · rw [← hsum, hchains]
    apply Finset.sum_congr rfl
    intro i hi
    simp [Finset.mem_range.mp hi]
  · rw [← hsum, ← chainSum_eq, ← hchains]
    rfl

/-- Three ranks and three packets: two are missed by two neighbors, and one by a single rank. -/
theorem missChains_exact_three :
    (plot ⟨3, 1, 1⟩ [⟨0, 0⟩, ⟨1, 1⟩, ⟨1, 2⟩, ⟨2, 2⟩]).missChains[1]? = some 2 ∧
      (plot ⟨3, 1, 1⟩ [⟨0, 0⟩, ⟨1, 1⟩, ⟨1, 2⟩, ⟨2, 2⟩]).s = 5 := by
  obtain ⟨-, hchains, -, hs⟩ :=
    missChains_exact ⟨3, 1, 1⟩ [⟨0, 0⟩, ⟨1, 1⟩, ⟨1, 2⟩, ⟨2, 2⟩] (by decide)
  exact ⟨(hchains 1 (by decide)).trans (by decide), hs.trans (by decide)⟩

end Runs

end Roce
