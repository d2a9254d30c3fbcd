import Mathlib.Algebra.Order.Floor.Semifield
import Mathlib.Data.List.Induction
import Mathlib.Data.Rat.Floor
import Mathlib.Tactic.Linarith
import Mathlib.Tactic.NormNum
import Roce.Lib.Machine
import Roce.QueuePair.Request

/-! # The rate of a send queue

DCQCN as `RdmaHw` has it: what the CNPs and three timers do to the rate of a send queue. A `double`
is a rational number, and a `DataRate` is an integer. -/

namespace Roce

/-- The attributes of `RdmaHw` that the rates depend on, and the data rate of the device. -/
structure MlxConfig where
  dataRate : Nat
  minRate : Nat := 100000000
  g : ℚ := 1 / 16
  rateOnFirstCnp : ℚ := 1
  ecnClampTgtRate : Bool := false
  rpgThreshold : Nat := 5
  rai : Nat := 5000000
  rhai : Nat := 50000000

/-- A send queue with `mlx`. -/
structure MlxQueuePair extends RdmaTxQueuePair where
  targetRate : Nat := 0
  alpha : ℚ := 1
  alphaCnpArrived : Bool := false
  firstCnp : Bool := true
  decreaseCnpArrived : Bool := false
  rpTimeStage : Nat := 0

/-- `DataRate`, of a `double`. -/
def DataRate.ofDouble (x : ℚ) : Nat := u64 ⌊x⌋₊

namespace MlxQueuePair

variable (cfg : MlxConfig) (q : MlxQueuePair)

def setMaxRate (maxRate : Nat) : MlxQueuePair :=
  { q with maxRate, rate := maxRate, targetRate := maxRate }

def updateAlphaMlx : MlxQueuePair :=
  { q with
    alpha := if q.alphaCnpArrived then (1 - cfg.g) * q.alpha + cfg.g else (1 - cfg.g) * q.alpha
    alphaCnpArrived := false }

def cnpReceivedMlx : MlxQueuePair :=
  if q.firstCnp then
    let rate := DataRate.ofDouble (cfg.rateOnFirstCnp * q.rate)
    { q with
      alpha := 1
      alphaCnpArrived := false
      decreaseCnpArrived := true
      targetRate := rate
      rate := rate
      firstCnp := false }
  else { q with alphaCnpArrived := true, decreaseCnpArrived := true }

def checkRateDecreaseMlx : MlxQueuePair :=
  if q.decreaseCnpArrived then
    { q with
      targetRate := if cfg.ecnClampTgtRate ∨ q.rpTimeStage ≠ 0 then q.rate else q.targetRate
      rate := max cfg.minRate (DataRate.ofDouble (q.rate * (1 - q.alpha / 2)))
      rpTimeStage := 0
      decreaseCnpArrived := false }
  else q

def fastRecoveryMlx : MlxQueuePair :=
  { q with rate := u64 (DataRate.ofDouble (q.rate / 2) + DataRate.ofDouble (q.targetRate / 2)) }

/-- An increase by `unit`. -/
def increase (unit : Nat) : MlxQueuePair :=
  let targetRate := u64 (q.targetRate + unit)
  fastRecoveryMlx { q with
    targetRate := if targetRate > cfg.dataRate then cfg.dataRate else targetRate }

def activeIncreaseMlx : MlxQueuePair := q.increase cfg cfg.rai

def hyperIncreaseMlx : MlxQueuePair := q.increase cfg cfg.rhai

def rateIncEventMlx : MlxQueuePair :=
  if q.rpTimeStage < cfg.rpgThreshold then q.fastRecoveryMlx
  else if q.rpTimeStage = cfg.rpgThreshold then q.activeIncreaseMlx cfg
  else q.hyperIncreaseMlx cfg

def rateIncEventTimerMlx : MlxQueuePair :=
  let q := q.rateIncEventMlx cfg
  { q with rpTimeStage := u32 (q.rpTimeStage + 1) }

end MlxQueuePair

inductive MlxEvent where
  | cnpReceived
  | updateAlpha
  | checkRateDecrease
  | rateIncEventTimer
  deriving DecidableEq, Repr

namespace MlxQueuePair

variable {cfg : MlxConfig} {q q' : MlxQueuePair}

def onEvent (cfg : MlxConfig) : MlxEvent → MlxQueuePair → MlxQueuePair
  | .cnpReceived, q => q.cnpReceivedMlx cfg
  | .updateAlpha, q => q.updateAlphaMlx cfg
  | .checkRateDecrease, q => q.checkRateDecreaseMlx cfg
  | .rateIncEventTimer, q => q.rateIncEventTimerMlx cfg

/-- A new queue pair with a maximum rate, that is neither below `MinRate` nor above the rate of the
link. -/
def Initial (cfg : MlxConfig) (q : MlxQueuePair) : Prop :=
  ∃ (qp : RdmaTxQueuePair) (maxRate : Nat), cfg.minRate ≤ maxRate ∧ maxRate ≤ cfg.dataRate ∧
    maxRate < 2 ^ 64 ∧ q = setMaxRate { toRdmaTxQueuePair := qp } maxRate

/-- The events in any order. -/
def machine (cfg : MlxConfig) : Machine MlxQueuePair MlxEvent where
  init := Initial cfg
  step q e q' := q' = onEvent cfg e q

/-- The bounds of the rate. -/
structure InBounds (cfg : MlxConfig) (q : MlxQueuePair) : Prop where
  alpha : 0 ≤ q.alpha ∧ q.alpha ≤ 1
  minRate : cfg.minRate ≤ q.rate
  maxRate : q.rate ≤ q.maxRate

/-- The unit of an increase. -/
def unit (cfg : MlxConfig) (q : MlxQueuePair) : Nat :=
  if q.rpTimeStage < cfg.rpgThreshold then 0
  else if q.rpTimeStage = cfg.rpgThreshold then cfg.rai
  else cfg.rhai

/-- The first CNP leaves at least `MinRate`; an increase does not raise the target rate above the
maximum rate; and an odd `MinRate` is not halved and doubled. -/
def Respects (cfg : MlxConfig) (q : MlxQueuePair) : MlxEvent → Prop
  | .cnpReceived => q.firstCnp → cfg.minRate ≤ cfg.rateOnFirstCnp * q.rate
  | .rateIncEventTimer =>
    (q.rpTimeStage < cfg.rpgThreshold ∨ q.targetRate + q.unit cfg < 2 ^ 64 ∧
      (q.targetRate + q.unit cfg ≤ q.maxRate ∨ cfg.dataRate ≤ q.maxRate)) ∧
    ¬(cfg.minRate % 2 = 1 ∧ q.rate = cfg.minRate ∧
      min (q.targetRate + q.unit cfg) cfg.dataRate = cfg.minRate)
  | _ => True

/-- What the bounds follow from. -/
structure Ordered (cfg : MlxConfig) (q : MlxQueuePair) : Prop where
  alpha : 0 ≤ q.alpha ∧ q.alpha ≤ 1
  minRate : cfg.minRate ≤ q.rate
  rate : q.rate ≤ q.targetRate
  targetRate : q.targetRate ≤ q.maxRate
  maxRate : q.maxRate ≤ cfg.dataRate ∧ q.maxRate < 2 ^ 64

theorem Ordered.inBounds (h : Ordered cfg q) : InBounds cfg q :=
  ⟨h.alpha, h.minRate, h.rate.trans h.targetRate⟩

end MlxQueuePair

/-! ## Rates -/

namespace DataRate

theorem ofDouble_le {x : ℚ} {n : Nat} (h : x ≤ n) : ofDouble x ≤ n :=
  (Nat.mod_le ..).trans (Nat.floor_le_of_le h)

theorem le_ofDouble {x : ℚ} {m n : Nat} (h : m ≤ x) (hx : x ≤ n) (hn : n < 2 ^ 64) :
    m ≤ ofDouble x := by
  rw [ofDouble, u64_of_lt ((Nat.floor_le_of_le hx).trans_lt hn)]
  exact Nat.le_floor h

theorem ofDouble_half {n : Nat} (hn : n < 2 ^ 64) : ofDouble (n / 2) = n / 2 := by
  rw [ofDouble, Nat.floor_div_ofNat, Nat.floor_natCast, u64_of_lt (by omega)]

end DataRate

/-! ## The events -/

namespace MlxQueuePair

variable {cfg : MlxConfig} {q q' : MlxQueuePair}

theorem Ordered.setMaxRate {maxRate : Nat} (hmin : cfg.minRate ≤ maxRate)
    (hdata : maxRate ≤ cfg.dataRate)
    (hword : maxRate < 2 ^ 64) (qp : RdmaTxQueuePair) :
    Ordered cfg (setMaxRate { toRdmaTxQueuePair := qp } maxRate) :=
  ⟨⟨zero_le_one, le_refl 1⟩, hmin, le_refl _, le_refl _, hdata, hword⟩

theorem Ordered.updateAlpha (hg : 0 ≤ cfg.g ∧ cfg.g ≤ 1) (h : Ordered cfg q) :
    Ordered cfg (q.updateAlphaMlx cfg) := by
  obtain ⟨h0, h1⟩ := h.alpha
  have hkeep0 : 0 ≤ (1 - cfg.g) * q.alpha := mul_nonneg (by linarith) h0
  have hkeep1 : (1 - cfg.g) * q.alpha ≤ 1 - cfg.g := mul_le_of_le_one_right (by linarith) h1
  refine ⟨?_, h.minRate, h.rate, h.targetRate, h.maxRate⟩
  rw [updateAlphaMlx]
  split <;> constructor <;> linarith

theorem Ordered.cnpReceived (hr : 0 < cfg.rateOnFirstCnp ∧ cfg.rateOnFirstCnp ≤ 1)
    (h : Ordered cfg q)
    (hmeets : Respects cfg q .cnpReceived) : Ordered cfg (q.cnpReceivedMlx cfg) := by
  rw [cnpReceivedMlx]
  split
  next hfirst =>
    have hle : cfg.rateOnFirstCnp * q.rate ≤ q.rate :=
      mul_le_of_le_one_left (Nat.cast_nonneg _) hr.2
    have hrate := h.rate
    have htarget := h.targetRate
    have hmax := h.maxRate
    have hnew := DataRate.ofDouble_le hle
    refine ⟨⟨zero_le_one, le_refl 1⟩, ?_, le_refl _, hnew.trans (hrate.trans htarget), hmax⟩
    exact DataRate.le_ofDouble (hmeets hfirst) hle (by omega)
  next => exact ⟨h.alpha, h.minRate, h.rate, h.targetRate, h.maxRate⟩

theorem Ordered.checkRateDecrease (h : Ordered cfg q) :
    Ordered cfg (q.checkRateDecreaseMlx cfg) := by
  rw [checkRateDecreaseMlx]
  split
  next =>
    have hle : q.rate * (1 - q.alpha / 2) ≤ q.rate :=
      mul_le_of_le_one_right (Nat.cast_nonneg _) (by linarith [h.alpha.1])
    have hnew : max cfg.minRate (DataRate.ofDouble (q.rate * (1 - q.alpha / 2))) ≤ q.rate :=
      max_le h.minRate (DataRate.ofDouble_le hle)
    have hrate := h.rate
    have htarget := h.targetRate
    refine ⟨h.alpha, le_max_left .., ?_, ?_, h.maxRate⟩
    · dsimp only
      split
      · exact hnew
      · exact hnew.trans hrate
    · dsimp only
      split
      · exact hrate.trans htarget
      · exact htarget
  next => exact h

/-- A new target rate, and half of the way to it. -/
theorem Ordered.fastRecovery {targetRate : Nat} (h : Ordered cfg q)
    (hle : q.targetRate ≤ targetRate) (hmax : targetRate ≤ q.maxRate)
    (hodd : ¬(cfg.minRate % 2 = 1 ∧ q.rate = cfg.minRate ∧ targetRate = cfg.minRate)) :
    Ordered cfg (fastRecoveryMlx { q with targetRate }) := by
  have hmin := h.minRate
  have hrate := h.rate
  have hword := h.maxRate
  have hnew : (fastRecoveryMlx { q with targetRate }).rate = q.rate / 2 + targetRate / 2 := by
    show u64 (DataRate.ofDouble (q.rate / 2) + DataRate.ofDouble (targetRate / 2)) = _
    rw [DataRate.ofDouble_half (by omega), DataRate.ofDouble_half (by omega), u64_of_lt (by omega)]
  refine ⟨h.alpha, ?_, ?_, hmax, hword⟩
  · rw [hnew]
    omega
  · rw [hnew]
    show _ ≤ targetRate
    omega

theorem Ordered.rateIncEvent (h : Ordered cfg q) (hmeets : Respects cfg q .rateIncEventTimer) :
    Ordered cfg (q.rateIncEventMlx cfg) := by
  obtain ⟨hcap, hodd⟩ := hmeets
  have hmax := h.maxRate
  have htarget := h.targetRate
  -- the active and the hyper increase
  have hincrease : ∀ unit, q.unit cfg = unit → ¬q.rpTimeStage < cfg.rpgThreshold →
      Ordered cfg (q.increase cfg unit) := by
    intro unit hunit hstage
    rw [hunit] at hcap hodd
    obtain ⟨hword, hcap⟩ := hcap.resolve_left hstage
    have hnew : (if u64 (q.targetRate + unit) > cfg.dataRate then cfg.dataRate
        else u64 (q.targetRate + unit)) =
        min (q.targetRate + unit) cfg.dataRate := by
      rw [u64_of_lt hword]
      split <;> omega
    rw [increase, hnew]
    exact h.fastRecovery (by omega) (by omega) hodd
  rw [rateIncEventMlx]
  split
  next hstage =>
    have hunit : q.unit cfg = 0 := if_pos hstage
    rw [hunit, Nat.add_zero, Nat.min_eq_left (htarget.trans hmax.1)] at hodd
    exact h.fastRecovery (Nat.le_refl _) htarget hodd
  next hstage =>
    split
    next heq => exact hincrease _ (by rw [unit, if_neg hstage, if_pos heq]) hstage
    next heq => exact hincrease _ (by rw [unit, if_neg hstage, if_neg heq]) hstage

theorem Ordered.rateIncEventTimer (h : Ordered cfg q) (hmeets : Respects cfg q .rateIncEventTimer) :
    Ordered cfg (q.rateIncEventTimerMlx cfg) := by
  obtain ⟨halpha, hmin, hrate, htarget, hmax⟩ := h.rateIncEvent hmeets
  exact ⟨halpha, hmin, hrate, htarget, hmax⟩

theorem Ordered.onEvent (hg : 0 ≤ cfg.g ∧ cfg.g ≤ 1)
    (hr : 0 < cfg.rateOnFirstCnp ∧ cfg.rateOnFirstCnp ≤ 1)
    (h : Ordered cfg q) (hmeets : Respects cfg q e) : Ordered cfg (onEvent cfg e q) := by
  cases e with
  | cnpReceived => exact h.cnpReceived hr hmeets
  | updateAlpha => exact h.updateAlpha hg
  | checkRateDecrease => exact h.checkRateDecrease
  | rateIncEventTimer => exact h.rateIncEventTimer hmeets

/-- **DCQCN keeps its rates in bounds**, in a run of events that respect them. -/
theorem rates_in_bounds (hg : 0 ≤ cfg.g ∧ cfg.g ≤ 1)
    (hr : 0 < cfg.rateOnFirstCnp ∧ cfg.rateOnFirstCnp ≤ 1)
    (h : ((machine cfg).restrict (Respects cfg)).Reachable q) :
    InBounds cfg q ∧ ∀ q', ((machine cfg).restrict (Respects cfg)).step q .rateIncEventTimer q' →
      q'.rate ≤ q'.targetRate := by
  have hordered : Ordered cfg q := by
    refine h.invariant (I := Ordered cfg) ?_ ?_
    · rintro q ⟨qp, maxRate, hmin, hdata, hword, rfl⟩
      exact .setMaxRate hmin hdata hword qp
    · rintro q e q' - ih ⟨hmeets, rfl⟩
      exact ih.onEvent hg hr hmeets
  refine ⟨hordered.inBounds, ?_⟩
  rintro q' ⟨hmeets, rfl⟩
  exact (hordered.rateIncEventTimer hmeets).rate

/-! ## A maximum rate below the rate of the link -/

theorem run_foldl (cfg : MlxConfig) (q : MlxQueuePair) (es : List MlxEvent) :
    (machine cfg).Run q es (es.foldl (fun q e => onEvent cfg e q) q) := by
  induction es using List.reverseRecOn with
  | nil => exact .nil
  | append_singleton es e ih =>
    rw [List.foldl_append]
    exact .snoc ih rfl

/-- The default configuration, with links of 100 Gb/s. -/
def defaultMlx : MlxConfig :=
  { dataRate := 100000000000, g := 1 / 256, rpgThreshold := 1, rai := 50000000, rhai := 100000000 }

theorem initial_setMaxRate (maxRate : Nat) (hmin : 100000000 ≤ maxRate)
    (hmax : maxRate ≤ 100000000000) :
    Initial defaultMlx (setMaxRate { mtu := 1000 } maxRate) :=
  ⟨{ mtu := 1000 }, maxRate, hmin, hmax, hmax.trans_lt (by decide), rfl⟩

/-- A CNP, the decrease that it causes, and seven increases. -/
def oneCnp : List MlxEvent :=
  .cnpReceived :: .checkRateDecrease :: List.replicate 7 .rateIncEventTimer

/-- With half of the rate of the link, as for the multicast of two roots, the rate grows beyond
it. -/
theorem above_maxRate : ∃ q : MlxQueuePair, (machine defaultMlx).Reachable q ∧
    (0 ≤ defaultMlx.g ∧ defaultMlx.g ≤ 1) ∧
    (0 < defaultMlx.rateOnFirstCnp ∧ defaultMlx.rateOnFirstCnp ≤ 1) ∧ ¬InBounds defaultMlx q := by
  have hinit := initial_setMaxRate 50000000000 (by decide) (by decide)
  refine ⟨_, (Machine.Reachable.init hinit).run (run_foldl defaultMlx _ oneCnp),
    by norm_num [defaultMlx], by norm_num [defaultMlx], fun h => ?_⟩
  exact absurd h.maxRate (by decide +kernel)

/-- With the rate of the link, the CNP halves the rate. -/
theorem rates_in_bounds_halved :
    ∃ q : MlxQueuePair, q.rate = 50000000000 ∧ InBounds defaultMlx q := by
  have h₀ : ((machine defaultMlx).restrict (Respects defaultMlx)).Reachable
      (setMaxRate { mtu := 1000 } 100000000000) :=
        .init (initial_setMaxRate 100000000000 (by decide) (by decide))
  have hfirst : Respects defaultMlx (setMaxRate { mtu := 1000 } 100000000000) .cnpReceived :=
    fun _ => by
    norm_num [defaultMlx, setMaxRate]
  have hdecrease : ∀ q, ((machine defaultMlx).restrict (Respects defaultMlx)).step q
    .checkRateDecrease
      (q.checkRateDecreaseMlx defaultMlx) := fun q => ⟨trivial, rfl⟩
  have h₂ := (h₀.step ⟨hfirst, rfl⟩).step (hdecrease _)
  exact ⟨_, by decide +kernel,
    (rates_in_bounds (by norm_num [defaultMlx]) (by norm_num [defaultMlx]) h₂).1⟩

end MlxQueuePair
end Roce
