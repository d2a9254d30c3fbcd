import Roce.Lib.OrdMap
import Roce.Switch.Ecn

/-! # The choice of an ECN configuration

The entries are sorted by their bandwidths. The search takes the entry before `lower_bound`, so that
an entry for exactly the bandwidth of the device is not found. -/

namespace Roce

/-- The map `sorted`, in which a later entry replaces an earlier one. -/
def sortedByBandwidth (map : List EcnConfigEntry) : OrdMap ℚ EcnConfigEntry :=
  map.foldl (fun sorted entry => sorted.insert entry.bandwidthBps entry) .empty

variable {map : List EcnConfigEntry} {bps : ℚ}

theorem sortedByBandwidth_concat (map : List EcnConfigEntry) (entry : EcnConfigEntry) :
    sortedByBandwidth (map ++ [entry]) =
      (sortedByBandwidth map).insert entry.bandwidthBps entry := by
  simp [sortedByBandwidth]

/-- The entries have their bandwidths for keys. -/
theorem bandwidthBps_of_mem_sorted (h : x ∈ (sortedByBandwidth map).entries) :
    x.2.bandwidthBps = x.1 := by
  induction map using List.reverseRecOn with
  | nil => exact absurd h List.not_mem_nil
  | append_singleton map entry ih =>
    rw [sortedByBandwidth_concat] at h
    rcases OrdMap.mem_insert.mp h with rfl | ⟨-, h⟩
    · rfl
    · exact ih h

/-- `FindEcnConfigFromBps` as it is written: the entry before `lower_bound` in the sorted map, and
an abort if it is the first. -/
theorem findEcnConfigFromBps_eq (map : List EcnConfigEntry) (bps : ℚ) :
    findEcnConfigFromBps map bps = ((sortedByBandwidth map).below? bps).map (·.2) := by
  induction map using List.reverseRecOn with
  | nil => rfl
  | append_singleton map entry ih =>
    have hlast : findEcnConfigFromBps (map ++ [entry]) bps =
        lastBelow bps (findEcnConfigFromBps map bps) entry := by
      simp [findEcnConfigFromBps]
    have hall : (((sortedByBandwidth map).below? bps).map (·.2)).all
        (·.bandwidthBps ≤ entry.bandwidthBps) =
        ((sortedByBandwidth map).below? bps).all (·.1 ≤ entry.bandwidthBps) := by
      cases hbelow : (sortedByBandwidth map).below? bps with
      | none => rfl
      | some x =>
        have hx := bandwidthBps_of_mem_sorted (OrdMap.below?_eq_some_iff.mp hbelow).1
        simp [hx]
    rw [hlast, ih, sortedByBandwidth_concat, OrdMap.below?_insert, lastBelow, hall]
    split <;> rfl

/-- With distinct bandwidths, no entry is replaced. -/
theorem mem_sortedByBandwidth (hdistinct : (map.map (·.bandwidthBps)).Nodup) :
    x ∈ (sortedByBandwidth map).entries ↔ x.2 ∈ map ∧ x.2.bandwidthBps = x.1 := by
  induction map using List.reverseRecOn with
  | nil => simp [sortedByBandwidth, OrdMap.empty]
  | append_singleton map entry ih =>
    rw [List.map_append, List.nodup_append] at hdistinct
    have hne : ∀ e ∈ map, e.bandwidthBps ≠ entry.bandwidthBps := fun e he =>
      hdistinct.2.2 _ (List.mem_map_of_mem he) _ (List.mem_singleton_self _)
    obtain ⟨k, e⟩ := x
    rw [sortedByBandwidth_concat, OrdMap.mem_insert, ih hdistinct.1, List.mem_append,
      List.mem_singleton, Prod.mk_inj]
    constructor
    · rintro (⟨rfl, rfl⟩ | ⟨-, he, hk⟩)
      · exact ⟨.inr rfl, rfl⟩
      · exact ⟨.inl he, hk⟩
    · rintro ⟨he | rfl, hk⟩
      · exact .inr ⟨hk ▸ hne e he, he, hk⟩
      · exact .inl ⟨hk.symm, rfl⟩

/-- What `FindEcnConfigFromBps` finds: the entry with the greatest bandwidth below `bps`. -/
theorem findEcnConfigFromBps_eq_some_iff (hdistinct : (map.map (·.bandwidthBps)).Nodup) :
    findEcnConfigFromBps map bps = some e ↔ e ∈ map ∧ e.bandwidthBps < bps ∧
      ∀ e' ∈ map, e'.bandwidthBps < bps → e'.bandwidthBps ≤ e.bandwidthBps := by
  rw [findEcnConfigFromBps_eq, Option.map_eq_some_iff]
  constructor
  · rintro ⟨x, hx, rfl⟩
    obtain ⟨hmem, hlt, hmax⟩ := OrdMap.below?_eq_some_iff.mp hx
    obtain ⟨he, hkey⟩ := (mem_sortedByBandwidth hdistinct).mp hmem
    refine ⟨he, hkey ▸ hlt, fun e' he' hlt' => hkey ▸ ?_⟩
    exact hmax (_, e') ((mem_sortedByBandwidth hdistinct).mpr ⟨he', rfl⟩) hlt'
  · rintro ⟨he, hlt, hmax⟩
    refine ⟨(e.bandwidthBps, e), OrdMap.below?_eq_some_iff.mpr ⟨?_, hlt, fun x hx hlt' => ?_⟩, rfl⟩
    · exact (mem_sortedByBandwidth hdistinct).mpr ⟨he, rfl⟩
    · obtain ⟨hx, hkey⟩ := (mem_sortedByBandwidth hdistinct).mp hx
      exact hkey ▸ hmax x.2 hx (hkey ▸ hlt')

theorem findEcnConfigFromBps_eq_none_iff (hdistinct : (map.map (·.bandwidthBps)).Nodup) :
    findEcnConfigFromBps map bps = none ↔ ∀ e ∈ map, ¬e.bandwidthBps < bps := by
  rw [findEcnConfigFromBps_eq, Option.map_eq_none_iff, OrdMap.below?_eq_none_iff]
  constructor
  · intro h e he
    exact h (_, e) ((mem_sortedByBandwidth hdistinct).mpr ⟨he, rfl⟩)
  · intro h x hx
    obtain ⟨hx, hkey⟩ := (mem_sortedByBandwidth hdistinct).mp hx
    exact hkey ▸ h x.2 hx

/-- The documented choice: the entry with the greatest bandwidth that is lower than or equal to
`bps`, and an abort if there is none. -/
structure Chooses (map : List EcnConfigEntry) (bps : ℚ) (found : Option EcnConfigEntry) : Prop where
  entry : ∀ e, found = some e ↔ e ∈ map ∧ e.bandwidthBps ≤ bps ∧
    ∀ e' ∈ map, e'.bandwidthBps ≤ bps → e'.bandwidthBps ≤ e.bandwidthBps
  abort : found = none ↔ ∀ e ∈ map, bps < e.bandwidthBps

/-- **When the documented entry is found**: where no entry is for exactly this bandwidth. -/
theorem chooses_iff (hdistinct : (map.map (·.bandwidthBps)).Nodup) :
    Chooses map bps (findEcnConfigFromBps map bps) ↔ ∀ e ∈ map, e.bandwidthBps ≠ bps := by
  constructor
  · intro h e he heq
    have hfound : findEcnConfigFromBps map bps = some e :=
      (h.entry e).mpr ⟨he, heq.le, fun e' _ hle => heq ▸ hle⟩
    exact absurd ((findEcnConfigFromBps_eq_some_iff hdistinct).mp hfound).2.1 (heq ▸ lt_irrefl _)
  · intro h
    have hlt : ∀ e ∈ map, (e.bandwidthBps ≤ bps ↔ e.bandwidthBps < bps) := fun e he =>
      ⟨fun hle => lt_of_le_of_ne hle (h e he), le_of_lt⟩
    constructor
    · intro e
      rw [findEcnConfigFromBps_eq_some_iff hdistinct]
      refine and_congr_right fun he => and_congr (hlt e he).symm (forall₂_congr fun e' he' => ?_)
      rw [hlt e' he']
    · rw [findEcnConfigFromBps_eq_none_iff hdistinct]
      exact forall₂_congr fun e he => by rw [← hlt e he, not_le]

/-- A device with 40 Gb/s, between two entries. -/
theorem chooses_between : Chooses [{ bandwidthBps := 50000000000 }, defaultEntry] 40000000000
    (findEcnConfigFromBps [{ bandwidthBps := 50000000000 }, defaultEntry] 40000000000) := by
  refine (chooses_iff (by norm_num [defaultEntry])).mpr fun e he => ?_
  simp only [List.mem_cons, List.not_mem_nil, or_false] at he
  rcases he with rfl | rfl <;> norm_num [defaultEntry]

/-- A device with exactly the bandwidth of the only entry: the search aborts. -/
theorem not_chooses : ¬∀ map bps, map ≠ [] → (map.map (·.bandwidthBps)).Nodup →
    Chooses map bps (findEcnConfigFromBps map bps) := by
  intro h
  have hchooses := h [defaultEntry] 25000000000 (by simp) (by simp)
  have hnone : findEcnConfigFromBps [defaultEntry] 25000000000 = none := by
    simp [findEcnConfigFromBps, lastBelow, defaultEntry]
  have hlt := hchooses.abort.mp hnone defaultEntry (List.mem_singleton_self _)
  exact absurd hlt (by norm_num [defaultEntry])

end Roce
