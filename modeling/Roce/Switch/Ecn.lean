import Mathlib.Algebra.Order.Floor.Ring
import Mathlib.Data.Rat.Floor
import Mathlib.Tactic.FieldSimp
import Mathlib.Tactic.Linarith
import Mathlib.Tactic.Positivity
import Roce.Switch.Mmu

/-! # ECN marking

From the configuration of the network to the probability with which a switch marks a packet that
leaves. `ConfigEcn` takes the thresholds for thousands of bytes, and `EcnConfigEntry` has them in
bytes. -/

namespace Roce

open Function

/-- An entry of the global configuration. The thresholds are in bytes. -/
structure EcnConfigEntry where
  bandwidthBps : ℚ := 0
  minBufBytes : ℚ := 0
  maxBufBytes : ℚ := 0
  maxProbability : ℚ := 0
  deriving DecidableEq

/-- The last entry below `bps` in the order of the bandwidths. Of the entries for one bandwidth the
last one counts. -/
def lastBelow (bps : ℚ) (found : Option EcnConfigEntry) (entry : EcnConfigEntry) :
    Option EcnConfigEntry :=
  if entry.bandwidthBps < bps ∧ found.all (·.bandwidthBps ≤ entry.bandwidthBps) then some entry
  else found

/-- `FindEcnConfigFromBps`: the entry before the first one that is not below `bps`, or nothing where
an `NS_ABORT_MSG_IF` fires. -/
def findEcnConfigFromBps (map : List EcnConfigEntry) (bps : ℚ) : Option EcnConfigEntry :=
  map.foldl (lastBelow bps) none

/-- The conversion of a `double` to `uint32_t`. -/
def toUInt32 (x : ℚ) : Nat := u32 ⌊x⌋.toNat

namespace SwitchMmu

/-- `ConfigEcn`. -/
def configEcn (port : Port) (kmin kmax : Nat) (pmax : ℚ) (mmu : SwitchMmu) : SwitchMmu :=
  { mmu with
    kmin := update mmu.kmin port (u32 (kmin * 1000))
    kmax := update mmu.kmax port (u32 (kmax * 1000))
    pmax := update mmu.pmax port pmax }

/-- `ShouldSendCN`; `draw` is what `GenRandomDouble(0, 1)` returns. -/
def shouldSendCN (s : Slot) (draw : ℚ) (mmu : SwitchMmu) : Bool :=
  if s.2 = 0 then false
  else if mmu.egressBytes s > mmu.kmax s.1 then true
  else if mmu.egressBytes s > mmu.kmin s.1 then
    draw < mmu.pmax s.1 * sub32 (mmu.egressBytes s) (mmu.kmin s.1) /
      sub32 (mmu.kmax s.1) (mmu.kmin s.1)
  else false

/-- `Init ECN` in `ConfigureSwitches`. -/
def initEcn (map : List EcnConfigEntry) (rate : ℚ) (port : Port) (mmu : SwitchMmu) :
    Option SwitchMmu := do
  let ecn ← findEcnConfigFromBps map rate
  return mmu.configEcn port (toUInt32 ecn.minBufBytes) (toUInt32 ecn.maxBufBytes) ecn.maxProbability

/-- The probability of a mark, from the thresholds of a port. -/
def markProbability (s : Slot) (mmu : SwitchMmu) : ℚ :=
  if mmu.egressBytes s > mmu.kmax s.1 then 1
  else if mmu.egressBytes s > mmu.kmin s.1 then
    mmu.pmax s.1 * sub32 (mmu.egressBytes s) (mmu.kmin s.1) / sub32 (mmu.kmax s.1) (mmu.kmin s.1)
  else 0

/-- A draw between 0 and 1 marks if it is below the probability. -/
theorem shouldSendCN_iff {mmu : SwitchMmu} (hs : s.2 ≠ 0) (h0 : 0 ≤ draw) (h1 : draw < 1) :
    mmu.shouldSendCN s draw = true ↔ draw < mmu.markProbability s := by
  rw [shouldSendCN, markProbability, if_neg hs]
  split
  · simpa using h1
  · split
    · exact decide_eq_true_iff
    · simpa using h0

end SwitchMmu

/-! ## The documented curve -/

/-- A threshold for the draws is the probability. -/
theorem eq_of_lt_iff {p q : ℚ} (hp : 0 ≤ p ∧ p ≤ 1) (hq : 0 ≤ q ∧ q ≤ 1)
    (h : ∀ draw, 0 ≤ draw → draw < 1 → (draw < p ↔ draw < q)) : p = q := by
  rcases lt_trichotomy p q with hlt | heq | hlt
  · exact absurd ((h p hp.1 (hlt.trans_le hq.2)).mpr hlt) (lt_irrefl p)
  · exact heq
  · exact absurd ((h q hq.1 (hlt.trans_le hp.2)).mp hlt) (lt_irrefl q)

namespace EcnConfigEntry

variable {e : EcnConfigEntry} {mmu : SwitchMmu} {s : Slot} {x : Nat}

/-- Integer thresholds below 2^22 bytes, and a probability. -/
structure Valid (e : EcnConfigEntry) : Prop where
  thresholds : ∃ min max : Nat, e.minBufBytes = min ∧ e.maxBufBytes = max ∧ min ≤ max ∧ max < 2 ^ 22
  probability : 0 ≤ e.maxProbability ∧ e.maxProbability ≤ 1

/-- The probability that increases linearly between the thresholds. -/
def linear (e : EcnConfigEntry) (x : ℚ) : ℚ :=
  e.maxProbability * (x - e.minBufBytes) / (e.maxBufBytes - e.minBufBytes)

/-- A switch marks what it should, for the length of a queue. -/
structure Follows (e : EcnConfigEntry) (mmu : SwitchMmu) (s : Slot) : Prop where
  never : mmu.egressBytes s ≤ e.minBufBytes → ∀ draw, 0 ≤ draw → draw < 1 →
    mmu.shouldSendCN s draw = false
  always : e.maxBufBytes < mmu.egressBytes s → ∀ draw, 0 ≤ draw → draw < 1 →
    mmu.shouldSendCN s draw = true
  between : e.minBufBytes < mmu.egressBytes s → mmu.egressBytes s ≤ e.maxBufBytes →
    ∀ draw, 0 ≤ draw → draw < 1 →
      (mmu.shouldSendCN s draw = true ↔ draw < e.linear (mmu.egressBytes s))
  bounds : e.minBufBytes < mmu.egressBytes s → mmu.egressBytes s ≤ e.maxBufBytes →
    0 ≤ e.linear (mmu.egressBytes s) ∧ e.linear (mmu.egressBytes s) ≤ e.maxProbability
  /-- Where the switch divides. -/
  divisor : mmu.kmin s.1 < mmu.egressBytes s → mmu.egressBytes s ≤ mmu.kmax s.1 →
    sub32 (mmu.kmax s.1) (mmu.kmin s.1) ≠ 0

/-- The documented probability. -/
def curve (e : EcnConfigEntry) (x : ℚ) : ℚ :=
  if x ≤ e.minBufBytes then 0 else if e.maxBufBytes < x then 1 else e.linear x

theorem linear_bounds (hp : 0 ≤ e.maxProbability) {x : ℚ} (hmin : e.minBufBytes < x)
    (hmax : x ≤ e.maxBufBytes) : 0 ≤ e.linear x ∧ e.linear x ≤ e.maxProbability := by
  have hpos : 0 < e.maxBufBytes - e.minBufBytes := by linarith
  have hx : 0 ≤ x - e.minBufBytes := by linarith
  refine ⟨by unfold linear; positivity, ?_⟩
  rw [linear, div_le_iff₀ hpos]
  exact mul_le_mul_of_nonneg_left (by linarith) hp

theorem curve_bounds (h : Valid e) (x : ℚ) : 0 ≤ e.curve x ∧ e.curve x ≤ 1 := by
  obtain ⟨h0, h1⟩ := h.probability
  unfold curve
  split
  next => norm_num
  next hmin =>
    split
    next => norm_num
    next hmax =>
      obtain ⟨hl0, hl1⟩ := linear_bounds h0 (not_le.mp hmin) (not_lt.mp hmax)
      exact ⟨hl0, hl1.trans h1⟩

/-- The thresholds of a port are a thousand times what they should be. -/
structure Scaled (e : EcnConfigEntry) (mmu : SwitchMmu) (port : Port) (min max : Nat) : Prop where
  minBufBytes : e.minBufBytes = min
  maxBufBytes : e.maxBufBytes = max
  kmin : mmu.kmin port = 1000 * min
  kmax : mmu.kmax port = 1000 * max
  pmax : mmu.pmax port = e.maxProbability
  le : min ≤ max
  lt : max < 2 ^ 22

/-- The probability that a switch marks with, in the configured thresholds. -/
theorem markProbability_eq {min max : Nat} (h : Scaled e mmu s.1 min max) :
    mmu.markProbability s =
      if 1000 * max < mmu.egressBytes s then 1
      else if 1000 * min < mmu.egressBytes s then
        e.maxProbability * (mmu.egressBytes s - 1000 * min) / (1000 * max - 1000 * min)
      else 0 := by
  rw [SwitchMmu.markProbability, h.kmin, h.kmax, h.pmax]
  have hlt := h.lt
  split
  next => rfl
  next hmax =>
    split
    next hmin =>
      rw [sub32_of_le (by omega) (by omega), sub32_of_le (by omega) (by omega),
        Nat.cast_sub (by omega), Nat.cast_sub (by omega)]
      push_cast
      rfl
    next => rfl

/-- The part of a probability between two thresholds. -/
theorem ratio_bounds {p x min max : ℚ} (hp : 0 ≤ p) (hmin : min < x) (hmax : x ≤ max) :
    0 ≤ p * (x - min) / (max - min) ∧ p * (x - min) / (max - min) ≤ p :=
  linear_bounds (e := ⟨0, min, max, p⟩) hp hmin hmax

theorem markProbability_bounds (hvalid : Valid e) {min max : Nat} (h : Scaled e mmu s.1 min max) :
    0 ≤ mmu.markProbability s ∧ mmu.markProbability s ≤ 1 := by
  obtain ⟨h0, h1⟩ := hvalid.probability
  rw [markProbability_eq h]
  split
  next => norm_num
  next hmax =>
    split
    next hmin =>
      have hlow : (1000 * min : ℚ) < mmu.egressBytes s := by exact_mod_cast hmin
      have hhigh : (mmu.egressBytes s : ℚ) ≤ 1000 * max := by exact_mod_cast not_lt.mp hmax
      obtain ⟨hl0, hl1⟩ := ratio_bounds h0 hlow hhigh
      exact ⟨hl0, hl1.trans h1⟩
    next => norm_num

/-- What a switch should do is to mark with the documented probability. -/
theorem follows_iff_eq (hvalid : Valid e) (hs : s.2 ≠ 0) {min max : Nat}
    (h : Scaled e mmu s.1 min max) :
    Follows e mmu s ↔ mmu.markProbability s = e.curve (mmu.egressBytes s) := by
  have hmark : ∀ {draw : ℚ}, 0 ≤ draw → draw < 1 →
      (mmu.shouldSendCN s draw = true ↔ draw < mmu.markProbability s) :=
        SwitchMmu.shouldSendCN_iff hs
  constructor
  case mp =>
    intro hf
    refine eq_of_lt_iff (markProbability_bounds hvalid h) (curve_bounds hvalid _)
      fun draw h0 h1 => ?_
    rw [← hmark h0 h1, curve]
    split
    next hmin => simp [hf.never hmin draw h0 h1, h0]
    next hmin =>
      split
      next hmax => simp [hf.always hmax draw h0 h1, h1]
      next hmax => exact hf.between (not_le.mp hmin) (not_lt.mp hmax) draw h0 h1
  case mpr =>
    intro heq
    rw [heq, curve] at hmark
    constructor
    case never =>
      intro hmin draw h0 h1
      rw [← Bool.not_eq_true, hmark h0 h1, if_pos hmin]
      exact not_lt.mpr h0
    case always =>
      intro hmax draw h0 h1
      have hle : e.minBufBytes ≤ e.maxBufBytes := by
        rw [h.minBufBytes, h.maxBufBytes]
        exact_mod_cast h.le
      rw [hmark h0 h1, if_neg (not_le.mpr (hle.trans_lt hmax)), if_pos hmax]
      exact h1
    case between =>
      intro hmin hmax draw h0 h1
      rw [hmark h0 h1, if_neg (not_le.mpr hmin), if_neg (not_lt.mpr hmax)]
    case bounds => exact linear_bounds hvalid.probability.1
    case divisor =>
      intro hmin hmax
      have hlt := h.lt
      rw [h.kmin] at hmin ⊢
      rw [h.kmax] at hmax ⊢
      rw [sub32_of_le (by omega) (by omega)]
      omega

/-- Where a factor of 1000 makes no difference. -/
def Unscaled (e : EcnConfigEntry) (x : ℚ) : Prop :=
  x ≤ e.minBufBytes ∨ 1000 * e.maxBufBytes < x ∨ x ≤ e.maxBufBytes ∧ e.maxProbability = 0 ∨
    x = 1000 * e.maxBufBytes ∧ e.minBufBytes < e.maxBufBytes ∧ e.maxProbability = 1

/-- Between the thresholds, the probability of a mark is lower than it should be. -/
theorem scaled_lt_linear {p x min max : ℚ} (hp : 0 < p) (hx : 0 < x) (hmin : min < x)
    (hmax : x ≤ max) :
    p * (x - 1000 * min) / (1000 * max - 1000 * min) < p * (x - min) / (max - min) := by
  have hpos : 0 < max - min := by linarith
  rw [show 1000 * max - 1000 * min = 1000 * (max - min) by ring,
    div_lt_div_iff₀ (by positivity) hpos]
  have hdiff : p * (x - min) * (1000 * (max - min)) - p * (x - 1000 * min) * (max - min) =
      999 * (p * (max - min) * x) := by ring
  have hgain : 0 < p * (max - min) * x := by positivity
  linarith

/-- Beyond the thresholds, the probability of a mark is not 1 yet. -/
theorem ratio_eq_one {p x min max : ℚ} (hp : p ≤ 1) (hmin : min < x) (hmax : x ≤ max)
    (h : p * (x - min) / (max - min) = 1) : x = max ∧ p = 1 := by
  have hpos : 0 < max - min := by linarith
  have hx : 0 < x - min := by linarith
  rw [div_eq_one_iff_eq hpos.ne'] at h
  have hle : p * (x - min) ≤ x - min := mul_le_of_le_one_left hx.le hp
  have heq : x = max := by linarith
  refine ⟨heq, ?_⟩
  rw [← heq] at h
  exact mul_right_cancel₀ hx.ne' (h.trans (one_mul _).symm)

theorem eq_curve_iff (hvalid : Valid e) {min max : Nat} (h : Scaled e mmu s.1 min max) :
    mmu.markProbability s = e.curve (mmu.egressBytes s) ↔ e.Unscaled (mmu.egressBytes s) := by
  obtain ⟨h0, h1⟩ := hvalid.probability
  have hle : (min : ℚ) ≤ max := by exact_mod_cast h.le
  have hmin0 : (0 : ℚ) ≤ min := Nat.cast_nonneg _
  have hx0 : (0 : ℚ) ≤ mmu.egressBytes s := Nat.cast_nonneg _
  have hmark : mmu.markProbability s =
      if (1000 * max : ℚ) < mmu.egressBytes s then 1
      else if (1000 * min : ℚ) < mmu.egressBytes s then
        e.maxProbability * (mmu.egressBytes s - 1000 * min) / (1000 * max - 1000 * min)
      else 0 := by
    rw [markProbability_eq h]
    norm_cast
  rw [hmark, curve, linear, Unscaled, h.minBufBytes, h.maxBufBytes]
  generalize (mmu.egressBytes s : ℚ) = x at *
  rcases le_or_gt x (min : ℚ) with hmin | hmin
  · rw [if_neg (by linarith), if_neg (by linarith), if_pos hmin]
    exact iff_of_true rfl (.inl hmin)
  rcases le_or_gt x (max : ℚ) with hmax | hmax
  · -- between the thresholds
    rw [if_neg (by linarith), if_neg (not_le.mpr hmin), if_neg (not_lt.mpr hmax)]
    rcases h0.eq_or_lt with hzero | hpos
    · refine iff_of_true ?_ (.inr (.inr (.inl ⟨hmax, hzero.symm⟩)))
      simp [← hzero]
    · have hlt := scaled_lt_linear hpos (by linarith) hmin hmax
      have hprob := (ratio_bounds hpos.le hmin hmax)
      refine iff_of_false (fun heq => ?_) ?_
      · split at heq
        · exact absurd heq hlt.ne
        · have : 0 < e.maxProbability * (x - min) / (max - min) := by
            have : 0 < (max : ℚ) - min := by linarith
            have : 0 < x - (min : ℚ) := by linarith
            positivity
          linarith
      · rintro (hle | hlt | ⟨-, hzero⟩ | ⟨heq, -, -⟩) <;> linarith
  · -- beyond the thresholds
    rw [if_neg (not_le.mpr hmin), if_pos hmax]
    rcases lt_or_ge (1000 * max : ℚ) x with hhigh | hhigh
    · rw [if_pos hhigh]
      exact iff_of_true rfl (.inr (.inl hhigh))
    · rw [if_neg (not_lt.mpr hhigh)]
      constructor
      · intro heq
        split at heq
        next hlow =>
          obtain ⟨hxeq, hone⟩ := ratio_eq_one h1 hlow hhigh heq
          exact .inr (.inr (.inr ⟨hxeq, by linarith, hone⟩))
        next => norm_num at heq
      · rintro (hle | hlt | ⟨hle, -⟩ | ⟨heq, hlt, hone⟩)
        · linarith
        · linarith
        · linarith
        · have hpos : (1000 * max : ℚ) - 1000 * min ≠ 0 := by linarith
          rw [if_pos (by linarith), heq, hone, one_mul, div_self hpos]

end EcnConfigEntry

/-! ## The configuration -/

theorem mem_of_foldl {map : List EcnConfigEntry} {found : Option EcnConfigEntry}
    (h : map.foldl (lastBelow bps) found = some e) : e ∈ map ∨ found = some e := by
  induction map generalizing found with
  | nil => exact .inr h
  | cons entry map ih =>
    rcases ih h with hmem | hfound
    · exact .inl (List.mem_cons_of_mem _ hmem)
    · rw [lastBelow] at hfound
      split at hfound
      · exact .inl (Option.some.inj hfound ▸ List.mem_cons_self)
      · exact .inr hfound

theorem mem_of_findEcnConfigFromBps {map : List EcnConfigEntry}
    (h : findEcnConfigFromBps map bps = some e) : e ∈ map :=
  (mem_of_foldl h).resolve_right (by simp)

theorem toUInt32_natCast {n : Nat} (h : n < 2 ^ 32) : toUInt32 n = n := by
  rw [toUInt32, Int.floor_natCast, Int.toNat_natCast, u32_of_lt h]

/-- **When a switch follows the documented curve**: for the lengths of a queue for which thresholds
in thousands of bytes come to the same. -/
theorem ecn_curve_iff {map : List EcnConfigEntry} {mmu₀ mmu : SwitchMmu} {s : Slot}
    (hvalid : ∀ e ∈ map, e.Valid) (hfind : findEcnConfigFromBps map rate = some e)
    (hinit : mmu₀.initEcn map rate s.1 = some mmu) (hs : s.2 ≠ 0) :
    e.Follows mmu s ↔ e.Unscaled (mmu.egressBytes s) := by
  have he := hvalid e (mem_of_findEcnConfigFromBps hfind)
  obtain ⟨min, max, hmin, hmax, hle, hlt⟩ := he.thresholds
  have hscaled : e.Scaled mmu s.1 min max := by
    rw [SwitchMmu.initEcn, hfind, Option.bind_eq_bind, Option.bind_some, hmin, hmax,
      toUInt32_natCast (by omega), toUInt32_natCast (by omega)] at hinit
    cases hinit
    refine ⟨hmin, hmax, (update_self ..).trans ?_, (update_self ..).trans ?_, update_self ..,
      hle, hlt⟩
    · rw [u32_of_lt (by omega), Nat.mul_comm]
    · rw [u32_of_lt (by omega), Nat.mul_comm]
  rw [EcnConfigEntry.follows_iff_eq he hs hscaled, EcnConfigEntry.eq_curve_iff he hscaled]

/-! ## A queue of a port with 50 Gb/s -/

/-- The entry of the default configuration for such a port. -/
def defaultEntry : EcnConfigEntry := ⟨25000000000, 100000, 400000, 1 / 5⟩

theorem defaultEntry_valid : defaultEntry.Valid :=
  ⟨⟨100000, 400000, rfl, rfl, by decide, by decide⟩, by norm_num [defaultEntry],
    by norm_num [defaultEntry]⟩

theorem find_defaultEntry : findEcnConfigFromBps [defaultEntry] 50000000000 =
    some defaultEntry := by
  have hlt : defaultEntry.bandwidthBps < 50000000000 := by norm_num [defaultEntry]
  simp [findEcnConfigFromBps, lastBelow, hlt]

/-- The port, with a queue of a length. -/
theorem initEcn_defaultEntry (x : Nat) : ∃ mmu : SwitchMmu,
    SwitchMmu.initEcn [defaultEntry] 50000000000 1 { egressBytes := fun _ => x } = some mmu ∧
      mmu.egressBytes (1, 3) = x ∧ mmu.kmin 1 = 100000000 ∧ mmu.kmax 1 = 400000000 := by
  have hmin : toUInt32 defaultEntry.minBufBytes = 100000 :=
    toUInt32_natCast (n := 100000) (by decide)
  have hmax : toUInt32 defaultEntry.maxBufBytes = 400000 :=
    toUInt32_natCast (n := 400000) (by decide)
  rw [SwitchMmu.initEcn, find_defaultEntry, Option.bind_eq_bind, Option.bind_some, hmin, hmax]
  exact ⟨_, rfl, rfl, rfl, rfl⟩

/-- 500 kB are above the upper threshold, and are not marked. -/
theorem congested_not_marked : ∃ (mmu₀ mmu : SwitchMmu) (s : Slot), defaultEntry.Valid ∧
    findEcnConfigFromBps [defaultEntry] 50000000000 = some defaultEntry ∧
    mmu₀.initEcn [defaultEntry] 50000000000 s.1 = some mmu ∧ s.2 ≠ 0 ∧
      ¬defaultEntry.Follows mmu s := by
  obtain ⟨mmu, hinit, hx, hmin, hmax⟩ := initEcn_defaultEntry 500000
  refine ⟨_, mmu, (1, 3), defaultEntry_valid, find_defaultEntry, hinit, by decide, fun h => ?_⟩
  have hmarked := h.always (by rw [hx]; norm_num [defaultEntry]) 0 (by norm_num) (by norm_num)
  rw [SwitchMmu.shouldSendCN, hx, hmin, hmax] at hmarked
  norm_num at hmarked

/-- 50 kB are below both. -/
theorem ecn_curve_short : ∃ mmu : SwitchMmu, mmu.egressBytes (1, 3) = 50000 ∧
    defaultEntry.Follows mmu (1, 3) := by
  obtain ⟨mmu, hinit, hx, -⟩ := initEcn_defaultEntry 50000
  have hvalid : ∀ e ∈ [defaultEntry], e.Valid := fun e he =>
    List.mem_singleton.mp he ▸ defaultEntry_valid
  refine ⟨mmu, hx, (ecn_curve_iff hvalid find_defaultEntry hinit (by decide)).mpr (.inl ?_)⟩
  rw [hx]
  norm_num [defaultEntry]

end Roce
